import DBolOS.Proc.Runs

/-!
# The current process, the running one and the waiting ones

Over all runs of the process manager: exactly when the current process stays in the list
(`currentProcess_listed_iff`), exactly when every jump goes to a process that is ready and then runs
(`dispatch_good_iff`), and that no process waits for one that has left (`waiting_listed`).
-/

namespace DBolOS.Proc

open Manager

variable {m m' : Manager} {s s' : Sched} {a b c : Nat} {e : Event} {o : Outcome} {es : List Event}

/-! ### The current process -/

namespace Sched

def Live (s : Sched) : Prop := ∀ c, s.current = some c → c ∈ s.order

private theorem Switch.live (hs : s.Live) (h : s.Switch o s') : s'.Live := by
  rcases h.target with ⟨-, -, rfl⟩ | ⟨a, was, -, ha, hcurrent, -⟩
  · exact hs
  · intro c hc
    rw [hcurrent] at hc
    cases hc
    rw [h.order]
    exact ha

private theorem Step.live_iff (hs : s.Live) (hnodup : s.order.Nodup) (h : s.Step e o s') :
    s'.Live ↔ (e = .exit → ∃ b ∈ s.order, s.current ≠ some b) := by
  cases h with
  | exit hruns horder hnext =>
    have hiff := exit_mem_iff hnodup horder hnext
    simp only [hruns.current, ne_eq, Option.some.injEq, true_imp_iff]
    constructor
    · intro hlive
      obtain ⟨b, hb, hbc⟩ := hiff.1 (hlive _ rfl)
      exact ⟨b, hb, Ne.symm hbc⟩
    · rintro ⟨b, hb, hbc⟩ x hx
      cases hx
      exact hiff.2 ⟨b, hb, Ne.symm hbc⟩
  | create hcurrent hfresh =>
    refine iff_of_true ?_ (fun he => by cases he)
    intro c hc
    rw [enqueue_current, hcurrent] at hc
    cases hc
  | createFailed => exact iff_of_true hs (fun he => by cases he)
  | enableProcesses => exact iff_of_true hs (fun he => by cases he)
  | idle => exact iff_of_true hs (fun he => by cases he)
  | tick hreads hswitch => exact iff_of_true (hswitch.live hs) (fun he => by cases he)
  | newline hruns => exact iff_of_true hs (fun he => by cases he)
  | read hruns => exact iff_of_true hs (fun he => by cases he)
  | pollReady hruns => exact iff_of_true hs (fun he => by cases he)
  | @pollWait c _ _ hruns hinput hswitch =>
    have hblock : (s.update c block).Live := hs
    exact iff_of_true (hswitch.live hblock) (fun he => by cases he)
  | execve hruns hfresh hswitch =>
    refine iff_of_true (hswitch.live ?_) (fun he => by cases he)
    intro c hc
    exact List.mem_append_left _ (hs c hc)
  | execveFailed hruns hswitch => exact iff_of_true (hswitch.live hs) (fun he => by cases he)

end Sched

/-- When processes are left, the current one is among them. -/
private theorem Sched.Step.empty_or_live (hnodup : s.order.Nodup) (hs : s.order = [] ∨ s.Live) (h : s.Step e o s') :
    s'.order = [] ∨ s'.Live := by
  rcases hs with hnil | hlive
  · have hout : ∀ {c r}, ¬ s.Runs c r := by
      intro c r hruns
      have hmem := hruns.mem
      simp [hnil] at hmem
    cases h with
    | create hcurrent hfresh => exact Or.inr (fun c hc => by simp [hcurrent] at hc)
    | createFailed => exact Or.inl hnil
    | enableProcesses => exact Or.inl hnil
    | idle => exact Or.inl hnil
    | tick hreads hswitch => exact Or.inl (hswitch.order.trans hnil)
    | newline hruns => exact absurd hruns hout
    | read hruns => exact absurd hruns hout
    | pollReady hruns => exact absurd hruns hout
    | pollWait hruns => exact absurd hruns hout
    | execve hruns => exact absurd hruns hout
    | execveFailed hruns => exact absurd hruns hout
    | exit hruns => exact absurd hruns hout
  · by_cases hother : e = .exit → ∃ b ∈ s.order, s.current ≠ some b
    · exact Or.inr ((h.live_iff hlive hnodup).2 hother)
    · push Not at hother
      obtain ⟨rfl, hall⟩ := hother
      cases h with
      | exit hruns horder hnext =>
        refine Or.inl (List.eq_nil_iff_forall_not_mem.2 ?_)
        intro b hb
        have hcurrent := hall b (List.mem_of_mem_erase hb)
        rw [hruns.current] at hcurrent
        cases hcurrent
        exact hnodup.not_mem_erase hb

/-- The current process is in the list in every state of a run exactly when no process exits while it is the only
one.  The test for an empty list in `exit_proc` comes before the exiting process is unlinked. -/
theorem currentProcess_listed_iff (hrun : boot.Reaches es m) :
    (∀ pre suf t, es = pre ++ suf → boot.Reaches pre t → ∀ c, t.currentProcess = some c → t.Listed c) ↔
      ∀ pre e suf t, es = pre ++ e :: suf → boot.Reaches pre t →
        e = .exit → ∃ b, t.Listed b ∧ t.currentProcess ≠ some b := by
  refine Machine.Run.forall_prefix_iff (P := fun t => ∃ s, Abs t s ∧ s.Live)
    (R := fun t => ∀ c, t.currentProcess = some c → t.Listed c)
    (Q := fun t e => e = .exit → ∃ b, t.Listed b ∧ t.currentProcess ≠ some b) ?_ ?_ hrun ?_
  · rintro t ⟨s, h, hlive⟩ c hc
    exact h.listed_iff.2 (hlive c (h.current.symm.trans hc))
  · rintro t e t' ⟨s, h, hlive⟩ - hexec
    obtain ⟨o, hstep⟩ := exec_eq hexec
    obtain ⟨s', hstep', h'⟩ := h.step hstep
    have hlive' : (∀ c, t'.currentProcess = some c → t'.Listed c) ↔ s'.Live := by
      simp only [Sched.Live, h'.current, h'.listed_iff]
    refine ⟨?_, fun hR => ⟨s', h', hlive'.1 hR⟩⟩
    rw [hlive', hstep'.live_iff hlive h.list.nodup]
    simp only [h.listed_iff, h.current]
  · exact ⟨_, Abs.boot, fun c hc => by cases hc⟩

/-- The first process exits as the only one. -/
theorem currentProcess_freed : ∃ es m c, boot.Reaches es m ∧ m.currentProcess = some c ∧ ¬ m.Listed c := by
  have hrun : ([.create (.failed false), .create (.created 10 .zero), .enableProcesses, .tick, .exit].foldlM exec
      boot).map (fun m => (m.currentProcess, m.processListHead)) = some (some 10, none) := rfl
  obtain ⟨m, hm, heq⟩ := Option.map_eq_some_iff.1 hrun
  obtain ⟨hcurrent, hhead⟩ := Prod.mk.inj heq
  refine ⟨_, m, 10, reaches_iff.2 hm, hcurrent, ?_⟩
  rintro ⟨x, hx, -⟩
  rw [hhead] at hx
  cases hx

/-- Two processes, of which the first runs. -/
def firstOfTwo : List Event := [.create (.created 10 .zero), .create (.created 20 .zero), .enableProcesses, .tick]

/-- The first of two processes exits. -/
theorem currentProcess_listed_iff_twoProcesses : ∃ m, boot.Reaches (firstOfTwo ++ [.exit]) m ∧
    m.currentProcess = some 20 ∧ ∀ pre suf t, firstOfTwo ++ [.exit] = pre ++ suf → boot.Reaches pre t →
      ∀ c, t.currentProcess = some c → t.Listed c := by
  have hrun : ((firstOfTwo ++ [Event.exit]).foldlM exec boot).map Manager.currentProcess = some (some 20) := rfl
  obtain ⟨m, hm, hcurrent⟩ := Option.map_eq_some_iff.1 hrun
  refine ⟨m, reaches_iff.2 hm, hcurrent, (currentProcess_listed_iff (reaches_iff.2 hm)).2 ?_⟩
  rintro pre e suf t hsplit hpre rfl
  have hexit : Event.exit ∉ firstOfTwo := by simp [firstOfTwo]
  -- the exit is the last entry
  obtain rfl : pre = firstOfTwo := by
    have hnil : suf = [] := by
      rcases List.eq_nil_or_concat suf with hnil | ⟨suf', e, rfl⟩
      · exact hnil
      · rw [List.concat_eq_append, ← List.cons_append, ← List.append_assoc] at hsplit
        have hinit := (List.append_inj' hsplit rfl).1
        rw [hinit] at hexit
        simp at hexit
    subst hnil
    exact (List.append_inj' hsplit rfl).1.symm
  have htwo : (firstOfTwo.foldlM exec boot).map (fun m => (m.currentProcess, m.processListHead, m.next 10)) =
      some (some 10, some 10, some 20) := rfl
  rw [reaches_iff.1 hpre, Option.map_some, Option.some.injEq] at htwo
  simp only [Prod.mk.injEq] at htwo
  obtain ⟨hfirst, hhead, hnext⟩ := htwo
  refine ⟨20, ⟨10, hhead, .single hnext⟩, ?_⟩
  rw [hfirst]
  decide

/-! ### The running process -/

/-- The jump to `a`, found in state `was`: `a` was ready, is current now, and is the only process of the list that
runs. -/
structure GoodDispatch (m' : Manager) (a : Nat) (was : ProcessState) : Prop where
  ready : was = .ready
  current : m'.currentProcess = some a
  running : ∀ b, (m'.Listed b ∧ ∃ p, m'.proc b = some p ∧ p.state = .running) ↔ b = a

private theorem Abs.running_iff (h : Abs m s) :
    (m.Listed b ∧ ∃ p, m.proc b = some p ∧ p.state = .running) ↔ b ∈ s.order ∧ (s.proc b).state = .running := by
  rw [h.listed_iff]
  constructor
  · rintro ⟨hb, p, hp, hrun⟩
    obtain ⟨-, rfl⟩ := h.mem_of_proc hp
    exact ⟨hb, hrun⟩
  · rintro ⟨hb, hrun⟩
    exact ⟨hb, _, h.proc_of_mem hb, hrun⟩

private theorem Sched.Switch.good {was : ProcessState} (hs : s.Tidy) (h : s.Switch (.dispatches a was) s') :
    was = .ready ∧ s'.current = some a ∧ ∀ b, (b ∈ s'.order ∧ (s'.proc b).state = .running) ↔ b = a := by
  have htidy := h.tidy hs
  rcases h.target with ⟨-, heq, -⟩ | ⟨a', was', heq, ha, hcurrent, hrun⟩
  · cases heq
  cases heq
  refine ⟨?_, hcurrent, ?_⟩
  · cases h with
    | first hnone horder => exact hs.fresh hnone a ha
    | next => rfl
  · intro b
    constructor
    · rintro ⟨hb, hb'⟩
      have := htidy.running b hb hb'
      rw [hcurrent] at this
      exact (Option.some.inj this).symm
    · rintro rfl
      exact ⟨by rw [h.order]; exact ha, hrun⟩

/-- `exit_proc` does not set the process running that it jumps to; every other jump is good. -/
private theorem Sched.Step.good_iff {was : ProcessState} (hs : s.Tidy) (hnodup : s.order.Nodup)
    (h : s.Step e (.dispatches a was) s') :
    (was = .ready ∧ s'.current = some a ∧ ∀ b, (b ∈ s'.order ∧ (s'.proc b).state = .running) ↔ b = a) ↔ e ≠ .exit := by
  cases h with
  | tick hreads hswitch => exact iff_of_true (hswitch.good hs) (fun he => by cases he)
  | pollWait hruns hinput hswitch =>
    exact iff_of_true (hswitch.good (hs.update hruns.current (fun h => by cases h))) (fun he => by cases he)
  | execve hruns hfresh hswitch =>
    exact iff_of_true (hswitch.good ((hs.enqueue hfresh).update hruns.current (fun h => by cases h)))
      (fun he => by cases he)
  | execveFailed hruns hswitch => exact iff_of_true (hswitch.good hs) (fun he => by cases he)
  | exit hruns horder hnext =>
    refine iff_of_false ?_ (fun he => he rfl)
    rintro ⟨-, -, hrun⟩
    obtain ⟨ha, ha'⟩ := (hrun a).2 rfl
    -- the only process that ran is the one that left
    have hcurrent := hs.running a (List.mem_of_mem_erase ha) (wakeWaiting_running ha')
    rw [hruns.current] at hcurrent
    cases hcurrent
    exact hnodup.not_mem_erase ha

/-- Every jump of a run is good exactly when no process exits in it. -/
theorem dispatch_good_iff (hrun : boot.Reaches es m) :
    (∀ pre e suf t t' a was, es = pre ++ e :: suf → boot.Reaches pre t →
        t.step e = some (t', .dispatches a was) → GoodDispatch t' a was) ↔
      ∀ e ∈ es, e ≠ .exit := by
  have hgood : ∀ {pre e t t' a was}, boot.Reaches pre t → t.step e = some (t', .dispatches a was) →
      (GoodDispatch t' a was ↔ e ≠ .exit) := by
    intro pre e t t' a was hpre hstep
    obtain ⟨s, h, hs⟩ := Abs.run_inv (I := Sched.Tidy) (fun s e o s' hs hnodup hstep => hstep.tidy hs hnodup)
      ⟨by simp [Sched.boot], by simp [Sched.boot]⟩ hpre
    obtain ⟨s', hstep', h'⟩ := h.step hstep
    rw [← hstep'.good_iff hs h.list.nodup]
    constructor
    · rintro ⟨h1, h2, h3⟩
      exact ⟨h1, h'.current.symm.trans h2, fun b => by rw [← h'.running_iff]; exact h3 b⟩
    · rintro ⟨h1, h2, h3⟩
      exact ⟨h1, h'.current.trans h2, fun b => by rw [h'.running_iff]; exact h3 b⟩
  constructor
  · rintro hall e he rfl
    obtain ⟨pre, suf, rfl⟩ := List.append_of_mem he
    obtain ⟨t, t', hpre, -, hexec, -⟩ := Machine.Run.split hrun
    obtain ⟨o, hstep⟩ := exec_eq hexec
    obtain ⟨s, h, -⟩ := Abs.run_inv (I := fun _ => True) (fun _ _ _ _ _ _ _ => trivial) trivial hpre
    obtain ⟨s', hstep', -⟩ := h.step hstep
    cases hstep' with
    | exit hruns horder hnext => exact (hgood hpre hstep).1 (hall pre _ suf t t' _ _ rfl hpre hstep) rfl
  · intro hno pre e suf t t' a was he hpre hstep
    exact (hgood hpre hstep).2 (hno e (he ▸ by simp))

/-- A child exits, and the jump goes to a process that is ready and stays so. -/
theorem dispatch_not_good : ∃ es m e m' a was, boot.Reaches es m ∧ m.step e = some (m', .dispatches a was) ∧
    ¬ GoodDispatch m' a was := by
  have hrun : (([.create (.created 10 .zero), .create (.created 20 .zero), .enableProcesses, .tick, .tick,
      .execve (.created 30 .zero)].foldlM exec boot).bind fun m => (m.step .exit).map fun r =>
        (r.2, (r.1.proc 10).map Process.state)) = some (.dispatches 10 .ready, some .ready) := rfl
  obtain ⟨m, hm, hstep⟩ := Option.bind_eq_some_iff.1 hrun
  obtain ⟨⟨m', o⟩, hstep, heq⟩ := Option.map_eq_some_iff.1 hstep
  obtain ⟨rfl, hstate⟩ := Prod.mk.inj heq
  refine ⟨_, m, .exit, m', 10, .ready, reaches_iff.2 hm, hstep, ?_⟩
  rintro ⟨-, -, hrunning⟩
  obtain ⟨-, p, hp, hp'⟩ := (hrunning 10).2 rfl
  rw [hp] at hstate
  simp [hp'] at hstate

theorem dispatch_good_iff_twoProcesses : ∃ m, boot.Reaches
    [.create (.created 10 .zero), .create (.created 20 .zero), .enableProcesses, .tick, .tick] m ∧
    ∀ pre e suf t t' a was,
      [.create (.created 10 .zero), .create (.created 20 .zero), .enableProcesses, .tick, .tick] = pre ++ e :: suf →
      boot.Reaches pre t → t.step e = some (t', .dispatches a was) → GoodDispatch t' a was := by
  have hrun : ([.create (.created 10 .zero), .create (.created 20 .zero), .enableProcesses, .tick, .tick].foldlM exec
      boot).isSome = true := rfl
  obtain ⟨m, hm⟩ := Option.isSome_iff_exists.1 hrun
  exact ⟨m, reaches_iff.2 hm, (dispatch_good_iff (reaches_iff.2 hm)).2 (by simp)⟩

/-! ### The waiting processes -/

namespace Sched

/-- Every waiting process waits for a process of the ring. -/
def Waits (s : Sched) : Prop :=
  ∀ b ∈ s.order, (s.proc b).state = .waiting → ∃ a ∈ s.order, (s.proc a).pid = (s.proc b).waitingFor

private theorem Waits.update {f : Process → Process} (hs : s.Waits) (hpid : (f (s.proc c)).pid = (s.proc c).pid)
    (hf : c ∈ s.order → (f (s.proc c)).state = .waiting →
      ∃ a ∈ s.order, (s.proc a).pid = (f (s.proc c)).waitingFor) : (s.update c f).Waits := by
  have hpid' : ∀ a, ((s.update c f).proc a).pid = (s.proc a).pid := by
    intro a
    rcases eq_or_ne a c with rfl | hac
    · simpa using hpid
    · rw [update_proc_ne hac]
  intro b hb hwait
  rcases eq_or_ne b c with rfl | hbc
  · rw [update_proc_self] at hwait ⊢
    obtain ⟨a, ha, heq⟩ := hf hb hwait
    exact ⟨a, ha, (hpid' a).trans heq⟩
  · rw [update_proc_ne hbc] at hwait ⊢
    obtain ⟨a, ha, heq⟩ := hs b hb hwait
    exact ⟨a, ha, (hpid' a).trans heq⟩

private theorem Waits.enqueue {p : Process} (hs : s.Waits) (hp : s.Fresh a p) : (s.enqueue a p).Waits := by
  intro b hb hwait
  rcases eq_or_ne b a with rfl | hba
  · simp [hp.state] at hwait
  · rw [enqueue_proc_ne hba] at hwait ⊢
    obtain ⟨x, hx, heq⟩ := hs b (by simpa [hba] using hb) hwait
    have hxa : x ≠ a := fun hxa => hp.notMem (hxa ▸ hx)
    exact ⟨x, List.mem_append_left _ hx, by rw [enqueue_proc_ne hxa, heq]⟩

private theorem Switch.waits (hs : s.Waits) (h : s.Switch o s') : s'.Waits := by
  intro b hb hwait
  rw [h.order] at hb
  obtain ⟨st, hst, hcases⟩ := h.proc b
  rw [hst] at hwait ⊢
  have hbefore : (s.proc b).state = .waiting := by
    rcases hcases with rfl | rfl | rfl
    · exact hwait
    · cases hwait
    · cases hwait
  obtain ⟨a, ha, heq⟩ := hs b hb hbefore
  obtain ⟨st', hst', -⟩ := h.proc a
  exact ⟨a, by rw [h.order]; exact ha, by rw [hst']; exact heq⟩

private theorem wakeTerminal_kept (id : UInt32) (p : Process) :
    (wakeTerminal id p).pid = p.pid ∧ (wakeTerminal id p).waitingFor = p.waitingFor ∧
      ((wakeTerminal id p).state = .waiting → p.state = .waiting) := by
  unfold wakeTerminal
  split
  · simp
  · simp

@[simp] theorem wakeWaiting_pid (pid : UInt32) (p : Process) : (wakeWaiting pid p).pid = p.pid := by
  unfold wakeWaiting
  split <;> rfl

/-- What still waits after the wake-up for `pid` waits for another pid, and did so before. -/
private theorem wakeWaiting_waiting {pid : UInt32} {p : Process} (h : (wakeWaiting pid p).state = .waiting) :
    wakeWaiting pid p = p ∧ p.state = .waiting ∧ p.waitingFor ≠ pid := by
  unfold wakeWaiting at h ⊢
  split at h
  · cases h
  · rename_i hne
    rw [if_neg hne]
    exact ⟨rfl, h, fun heq => hne ⟨h, heq⟩⟩

/-- The process that exits takes its pid along: what still waits waits for another one. -/
private theorem Waits.exit (hs : s.Waits) (x a : Nat) :
    (((s.wake (wakeWaiting (s.proc x).pid)).remove x).setCurrent a).Waits := by
  intro b hb hwait
  obtain ⟨heq, hwait', hne⟩ := wakeWaiting_waiting hwait
  obtain ⟨y, hy, hpid⟩ := hs b (List.mem_of_mem_erase hb) hwait'
  have hyx : y ≠ x := by
    rintro rfl
    exact hne hpid.symm
  refine ⟨y, (List.mem_erase_of_ne hyx).2 hy, ?_⟩
  simp only [setCurrent_proc, remove_proc, wake_proc, wakeWaiting_pid, heq]
  exact hpid

private theorem Step.waits (hs : s.Waits) (h : s.Step e o s') : s'.Waits := by
  cases h with
  | create hcurrent hfresh => exact hs.enqueue hfresh
  | createFailed => exact hs
  | enableProcesses => exact hs
  | idle => exact hs
  | tick hreads hswitch => exact hswitch.waits hs
  | newline hruns =>
    intro b hb hwait
    have hkept := wakeTerminal_kept s.terminalId
    obtain ⟨a, ha, heq⟩ := hs b hb ((hkept _).2.2 hwait)
    exact ⟨a, ha, (hkept _).1.trans (heq.trans (hkept _).2.1.symm)⟩
  | read hruns => exact hs.update rfl (hs _)
  | @pollReady c hruns hinput =>
    have hupdate : (s.update c (setReading false)).Waits := hs.update rfl (hs c)
    exact hupdate
  | pollWait hruns hinput hswitch =>
    refine hswitch.waits (hs.update rfl ?_)
    intro _ hwait
    cases hwait
  | @execve a c stale p o s' hruns hfresh hswitch =>
    -- the current process waits for the new one
    refine hswitch.waits ((hs.enqueue hfresh).update rfl ?_)
    intro _ _
    exact ⟨a, List.mem_append_right _ List.mem_cons_self, by simp [waitFor]⟩
  | execveFailed hruns hswitch => exact hswitch.waits hs
  | exit hruns horder hnext => exact hs.exit _ _

end Sched

/-- In every state of a run, a waiting process waits for the pid of a process in the list; and `exit_proc` of any
process of the list returns with every other process that waited for its pid ready, wherever the two stand in the list
and whichever process is current. -/
theorem waiting_listed (hrun : boot.Reaches es m) :
    (∀ b p, m.Listed b → m.proc b = some p → p.state = .waiting →
      ∃ a q, m.Listed a ∧ m.proc a = some q ∧ q.pid = p.waitingFor) ∧
    ∀ x px, m.Listed x → m.proc x = some px → m.currentProcess ≠ none →
      ∃ m' o, m.exitProc x = some (m', o) ∧
        ∀ b p, m.Listed b → b ≠ x → m.proc b = some p → p.state = .waiting → p.waitingFor = px.pid →
          m'.Listed b ∧ ∃ p', m'.proc b = some p' ∧ p'.state = .ready := by
  obtain ⟨s, h, hs, hlive⟩ := Abs.run_inv
    (I := fun s => s.Waits ∧ (s.order = [] ∨ s.Live))
    (fun s e o s' hs hnodup hstep => ⟨hstep.waits hs.1, hstep.empty_or_live hnodup hs.2⟩)
    ⟨by simp [Sched.Waits, Sched.boot], Or.inl rfl⟩ hrun
  constructor
  · intro b p hb hp hwait
    obtain ⟨hmem, rfl⟩ := h.mem_of_proc hp
    obtain ⟨a, ha, heq⟩ := hs b hmem hwait
    exact ⟨a, s.proc a, h.listed_iff.2 ha, h.proc_of_mem ha, heq⟩
  · intro x px hx hpx hcurrent
    obtain ⟨hmem, rfl⟩ := h.mem_of_proc hpx
    obtain ⟨c, hc⟩ := Option.ne_none_iff_exists'.1 hcurrent
    rw [h.current] at hc
    have hcmem : c ∈ s.order := by
      rcases hlive with hnil | hlive
      · simp [hnil] at hmem
      · exact hlive c hc
    obtain ⟨m', o, hexit⟩ := h.exitProc_isSome hmem hc hcmem
    obtain ⟨_, a, rest, -, -, -, -, h'⟩ := h.exitProc_spec hexit
    refine ⟨m', o, hexit, ?_⟩
    intro b p hb hbx hp hwait hfor
    obtain ⟨hbmem, rfl⟩ := h.mem_of_proc hp
    have hb' : b ∈ (((s.wake (wakeWaiting (s.proc x).pid)).remove x).setCurrent a).order :=
      (List.mem_erase_of_ne hbx).2 hbmem
    refine ⟨h'.listed_iff.2 hb', _, h'.proc_of_mem hb', ?_⟩
    simp [wakeWaiting, hwait, hfor]

theorem waiting_listed_child : ∃ m m' o, boot.Reaches [.create (.created 10 .zero), .create (.created 20 .zero),
    .enableProcesses, .tick, .tick, .execve (.created 30 .zero)] m ∧
    (m.proc 20).map Process.state = some .waiting ∧ m.exitProc 30 = some (m', o) ∧
    ∃ p, m'.proc 20 = some p ∧ p.state = .ready := by
  have hrun : ([.create (.created 10 .zero), .create (.created 20 .zero), .enableProcesses, .tick, .tick,
      .execve (.created 30 .zero)].foldlM exec boot).map (fun m => (m.processListHead, m.next 10, m.next 20)) =
        some (some 10, some 20, some 30) := rfl
  have hproc : ([.create (.created 10 .zero), .create (.created 20 .zero), .enableProcesses, .tick, .tick,
      .execve (.created 30 .zero)].foldlM exec boot).map (fun m => (m.currentProcess, (m.proc 30).map Process.pid,
        (m.proc 20).map fun p => (p.state, p.waitingFor))) = some (some 30, some 3, some (.waiting, 3)) := rfl
  obtain ⟨m, hm, hlinks⟩ := Option.map_eq_some_iff.1 hrun
  rw [hm, Option.map_some] at hproc
  simp only [Option.some.injEq, Prod.mk.injEq] at hlinks hproc
  obtain ⟨hhead, h10, h20⟩ := hlinks
  obtain ⟨hcurrent, hpid, hwait⟩ := hproc
  obtain ⟨px, hpx, hpid⟩ := Option.map_eq_some_iff.1 hpid
  obtain ⟨p, hp, hwait⟩ := Option.map_eq_some_iff.1 hwait
  obtain ⟨hstate, hfor⟩ := Prod.mk.inj hwait
  have hlisted : m.Listed 20 := ⟨10, hhead, Relation.ReflTransGen.single h10⟩
  have hlisted' : m.Listed 30 := ⟨10, hhead, .tail (.tail .refl h10) h20⟩
  obtain ⟨m', o, hexit, hwoken⟩ := (waiting_listed (reaches_iff.2 hm)).2 30 px hlisted' hpx (by simp [hcurrent])
  refine ⟨m, m', o, reaches_iff.2 hm, by simp [hp, hstate], hexit, ?_⟩
  exact (hwoken 20 p hlisted (by decide) hp hstate (hfor.trans hpid.symm)).2

end DBolOS.Proc
