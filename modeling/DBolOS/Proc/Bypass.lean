import DBolOS.Proc.Runs

/-!
# Round-robin bounded bypass

From the step in which a process becomes ready until it is dispatched, no other process is dispatched twice
(`dispatched_count_le_one`).  The walk of the current process round the ring does not come by the ready one, so what it
has passed stays behind it: new processes are appended, and those that leave are current.
-/

namespace DBolOS.Proc

open Manager

variable {m m' : Manager} {s s' : Sched} {a b c p : Nat} {e : Event} {o : Outcome} {es : List Event}

namespace Sched

/-! ### Blocked processes -/

/-- A blocked process is in the loop that reads the active terminal, where no line is ready. -/
structure Reads (s : Sched) : Prop where
  terminal : ∀ b ∈ s.order, (s.proc b).terminalId = s.terminalId
  blocked : ∀ b ∈ s.order, (s.proc b).state = .blocked → s.inputReady = false ∧ (s.proc b).inTerminalRead = true

private theorem Reads.update {f : Process → Process} (hs : s.Reads)
    (hid : (f (s.proc c)).terminalId = (s.proc c).terminalId)
    (hf : c ∈ s.order → (f (s.proc c)).state = .blocked → s.inputReady = false ∧ (f (s.proc c)).inTerminalRead = true) :
    (s.update c f).Reads := by
  constructor
  · intro b hb
    rcases eq_or_ne b c with rfl | hbc
    · rw [update_proc_self, hid]
      exact hs.terminal b hb
    · rw [update_proc_ne hbc]
      exact hs.terminal b hb
  · intro b hb hblocked
    rcases eq_or_ne b c with rfl | hbc
    · rw [update_proc_self] at hblocked ⊢
      exact hf hb hblocked
    · rw [update_proc_ne hbc] at hblocked ⊢
      exact hs.blocked b hb hblocked

private theorem Reads.enqueue {q : Process} (hs : s.Reads) (hq : s.Fresh a q) : (s.enqueue a q).Reads := by
  have hmem : ∀ b ∈ (s.enqueue a q).order, b ≠ a → b ∈ s.order := by
    intro b hb hba
    simpa [hba] using hb
  constructor
  · intro b hb
    rcases eq_or_ne b a with rfl | hba
    · rw [enqueue_proc_self]
      exact hq.terminal
    · rw [enqueue_proc_ne hba]
      exact hs.terminal b (hmem b hb hba)
  · intro b hb hblocked
    rcases eq_or_ne b a with rfl | hba
    · simp [hq.state] at hblocked
    · rw [enqueue_proc_ne hba] at hblocked ⊢
      exact hs.blocked b (hmem b hb hba) hblocked

private theorem Switch.reads (hs : s.Reads) (h : s.Switch o s') : s'.Reads := by
  constructor
  · intro b hb
    obtain ⟨st, hst, -⟩ := h.proc b
    rw [h.order] at hb
    rw [hst, h.terminalId]
    exact hs.terminal b hb
  · intro b hb hblocked
    obtain ⟨st, hst, hcases⟩ := h.proc b
    rw [h.order] at hb
    rw [hst] at hblocked ⊢
    rw [h.inputReady]
    rcases hcases with rfl | rfl | rfl
    · exact hs.blocked b hb hblocked
    · cases hblocked
    · cases hblocked

private theorem Step.reads (hs : s.Reads) (h : s.Step e o s') : s'.Reads := by
  cases h with
  | create hcurrent hfresh => exact hs.enqueue hfresh
  | createFailed => exact hs
  | enableProcesses => exact hs
  | idle => exact hs
  | tick hreads hswitch => exact hswitch.reads hs
  | newline hruns =>
    -- every process reads the active terminal, so none stays blocked
    constructor
    · intro b hb
      have := hs.terminal b hb
      simp only [setInputReady_proc, wake_proc, wakeTerminal]
      split <;> exact this
    · intro b hb hblocked
      have := hs.terminal b hb
      simp only [setInputReady_proc, wake_proc, wakeTerminal] at hblocked
      split at hblocked
      · cases hblocked
      · rename_i hne
        exact absurd ⟨hblocked, this⟩ hne
  | read hruns => exact hs.update rfl (fun hc hblocked => ⟨(hs.blocked _ hc hblocked).1, rfl⟩)
  | @pollReady c hruns hinput =>
    have hupdate : (s.update c (setReading false)).Reads := by
      refine hs.update rfl ?_
      intro hc hblocked
      have := (hs.blocked c hc hblocked).1
      simp [hinput] at this
    refine ⟨hupdate.terminal, ?_⟩
    intro b hb hblocked
    exact ⟨rfl, (hupdate.blocked b hb hblocked).2⟩
  | pollWait hruns hinput hswitch => exact hswitch.reads (hs.update rfl (fun _ _ => ⟨hinput, hruns.reads⟩))
  | execve hruns hfresh hswitch =>
    refine hswitch.reads ((hs.enqueue hfresh).update rfl ?_)
    intro _ hblocked
    cases hblocked
  | execveFailed hruns hswitch => exact hswitch.reads hs
  | exit hruns horder hnext =>
    have hwake : ∀ q : Process, ∀ pid, (wakeWaiting pid q).terminalId = q.terminalId ∧
        ((wakeWaiting pid q).state = .blocked → q.state = .blocked) ∧
        (wakeWaiting pid q).inTerminalRead = q.inTerminalRead := by
      intro q pid
      unfold wakeWaiting
      split <;> simp
    constructor
    · intro b hb
      exact (hwake _ _).1.trans (hs.terminal b (List.mem_of_mem_erase hb))
    · intro b hb hblocked
      obtain ⟨h1, h2⟩ := hs.blocked b (List.mem_of_mem_erase hb) ((hwake _ _).2.1 hblocked)
      exact ⟨h1, (hwake _ _).2.2.trans h2⟩

/-! ### A ready process that is not current -/

/-- `p` is ready and not current. -/
structure Awaits (s : Sched) (p : Nat) : Prop where
  mem : p ∈ s.order
  ready : (s.proc p).state = .ready
  notCurrent : s.current ≠ some p

/-- What a process that becomes ready does: unless it is dispatched at once, it is not current. -/
private theorem Step.awaits_of_becomes_ready (hs : s.Reads) (h : s.Step e o s')
    (hbefore : ¬ (p ∈ s.order ∧ (s.proc p).state = .ready)) (hmem : p ∈ s'.order)
    (hready : (s'.proc p).state = .ready) (ho : o.target ≠ some p) : s'.Awaits p := by
  have hswitched : ∀ {t : Sched}, t.Switch o s' → s'.current ≠ some p := by
    intro t hswitch hcurrent
    rcases hswitch.target with ⟨hnil, -, rfl⟩ | ⟨a, was, rfl, -, hcurrent', -⟩
    · simp [hnil] at hmem
    · rw [hcurrent'] at hcurrent
      exact ho hcurrent
  refine ⟨hmem, hready, ?_⟩
  cases h with
  | create hcurrent hfresh => simp [hcurrent]
  | createFailed => exact absurd ⟨hmem, hready⟩ hbefore
  | enableProcesses => exact absurd ⟨hmem, hready⟩ hbefore
  | idle => exact absurd ⟨hmem, hready⟩ hbefore
  | tick hreads hswitch => exact hswitched hswitch
  | newline hruns =>
    -- a blocked process that is current would still be in the loop that reads the terminal
    intro hcurrent
    rw [setInputReady_current, wake_current, hruns.current] at hcurrent
    cases hcurrent
    simp only [setInputReady_proc, wake_proc, wakeTerminal] at hready
    split at hready
    · rename_i hblocked
      have := (hs.blocked p hmem hblocked.1).2
      simp [hruns.reads] at this
    · exact hbefore ⟨hmem, hready⟩
  | @read c hruns =>
    refine absurd ⟨hmem, ?_⟩ hbefore
    rcases eq_or_ne p c with rfl | hpc
    · simpa [setReading] using hready
    · rwa [update_proc_ne hpc] at hready
  | @pollReady c hruns hinput =>
    refine absurd ⟨hmem, ?_⟩ hbefore
    rcases eq_or_ne p c with rfl | hpc
    · simpa [setReading] using hready
    · rwa [setInputReady_proc, update_proc_ne hpc] at hready
  | pollWait hruns hinput hswitch => exact hswitched hswitch
  | execve hruns hfresh hswitch => exact hswitched hswitch
  | execveFailed hruns hswitch => exact hswitched hswitch
  | exit hruns horder hnext =>
    intro hcurrent
    exact ho hcurrent

private theorem Awaits.update {f : Process → Process} (hp : s.Awaits p) (hcurrent : s.current = some c) :
    (s.update c f).Awaits p := by
  have hpc : p ≠ c := fun hpc => hp.notCurrent (hpc ▸ hcurrent)
  exact ⟨hp.mem, by rw [update_proc_ne hpc]; exact hp.ready, hp.notCurrent⟩

private theorem Awaits.enqueue {q : Process} (hp : s.Awaits p) (hq : s.Fresh a q) : (s.enqueue a q).Awaits p := by
  have hpa : p ≠ a := fun hpa => hq.notMem (hpa ▸ hp.mem)
  exact ⟨List.mem_append_left _ hp.mem, by rw [enqueue_proc_ne hpa]; exact hp.ready, hp.notCurrent⟩

private theorem Switch.awaits (hp : s.Awaits p) (h : s.Switch o s') (ho : o.target ≠ some p) : s'.Awaits p := by
  cases h with
  | empty => exact hp
  | @first a rest hcurrent horder =>
    have hpa : p ≠ a := fun hpa => ho (hpa ▸ rfl)
    exact ⟨hp.mem, by rw [setCurrent_proc, update_proc_ne hpa]; exact hp.ready, fun h => ho h⟩
  | @next a c rest skipped after hcurrent horder hsplit hskipped hready =>
    have hpa : p ≠ a := fun hpa => ho (hpa ▸ rfl)
    have hupdate : (s.update c setReady).Awaits p := hp.update hcurrent
    exact ⟨hp.mem, by rw [setCurrent_proc, update_proc_ne hpa]; exact hupdate.ready, fun h => ho h⟩

/-- A ready process that is not current stays so until it is dispatched. -/
private theorem Step.awaits (hp : s.Awaits p) (h : s.Step e o s') (ho : o.target ≠ some p) : s'.Awaits p := by
  cases h with
  | create hcurrent hfresh => exact hp.enqueue hfresh
  | createFailed => exact hp
  | enableProcesses => exact hp
  | idle => exact hp
  | tick hreads hswitch => exact hswitch.awaits hp ho
  | newline hruns => exact ⟨hp.mem, by simp [wakeTerminal, hp.ready], hp.notCurrent⟩
  | read hruns => exact hp.update hruns.current
  | pollReady hruns =>
    have hupdate : (s.update _ (setReading false)).Awaits p := hp.update hruns.current
    exact ⟨hupdate.mem, hupdate.ready, hupdate.notCurrent⟩
  | pollWait hruns hinput hswitch => exact hswitch.awaits (hp.update hruns.current) ho
  | execve hruns hfresh hswitch => exact hswitch.awaits ((hp.enqueue hfresh).update hruns.current) ho
  | execveFailed hruns hswitch => exact hswitch.awaits hp ho
  | @exit a c rest hruns horder hnext =>
    have hpc : p ≠ c := fun hpc => hp.notCurrent (hpc ▸ hruns.current)
    exact ⟨(List.mem_erase_of_ne hpc).2 hp.mem, by simp [wakeWaiting, hp.ready], fun h => ho h⟩

/-! ### The walk round the ring -/

/-- The walk from `p` round the ring to the current process has passed `a`. -/
def Behind (s : Sched) (p a : Nat) : Prop := ∃ c, s.current = some c ∧ Ring.Passed s.order p c a

private theorem Switch.behind (hnodup : s.order.Nodup) (hp : s.Awaits p) (ha : s.Behind p a) (h : s.Switch o s')
    (ho : o.target ≠ some p) : s'.Behind p a ∧ o.target ≠ some a := by
  obtain ⟨c, hc, hpassed⟩ := ha
  cases h with
  | empty horder =>
    have hmem := hp.mem
    simp [horder] at hmem
  | first hcurrent horder =>
    rw [hc] at hcurrent
    cases hcurrent
  | @next d c' rest skipped after hcurrent horder hsplit hskipped hready =>
    rw [hc] at hcurrent
    cases hcurrent
    have hdp : d ≠ p := fun hdp => ho (hdp ▸ rfl)
    have hnot : p ∉ skipped := fun hmem => hskipped p hmem (hp.update hc).ready
    obtain ⟨hpassed', hda⟩ := hpassed.walk hnodup horder hsplit hnot hdp
    exact ⟨⟨d, rfl, hpassed'⟩, fun heq => hda (Option.some.inj heq)⟩

/-- What was passed stays behind, unless it exits: it is not dispatched before `p` is. -/
private theorem Step.behind (hnodup : s.order.Nodup) (hp : s.Awaits p) (ha : s.Behind p a) (h : s.Step e o s')
    (ho : o.target ≠ some p) (hexit : ¬ (e = .exit ∧ s.current = some a)) : s'.Behind p a ∧ o.target ≠ some a := by
  obtain ⟨c, hc, hpassed⟩ := ha
  cases h with
  | create hcurrent hfresh =>
    rw [hc] at hcurrent
    cases hcurrent
  | createFailed => exact ⟨⟨c, hc, hpassed⟩, by simp [Outcome.target]⟩
  | enableProcesses => exact ⟨⟨c, hc, hpassed⟩, by simp [Outcome.target]⟩
  | idle => exact ⟨⟨c, hc, hpassed⟩, by simp [Outcome.target]⟩
  | tick hreads hswitch => exact hswitch.behind hnodup hp ⟨c, hc, hpassed⟩ ho
  | newline hruns => exact ⟨⟨c, hc, hpassed⟩, by simp [Outcome.target]⟩
  | read hruns => exact ⟨⟨c, hc, hpassed⟩, by simp [Outcome.target]⟩
  | pollReady hruns => exact ⟨⟨c, hc, hpassed⟩, by simp [Outcome.target]⟩
  | @pollWait c' _ _ hruns hinput hswitch =>
    have hblock : (s.update c' block).Behind p a := ⟨c, hc, hpassed⟩
    exact Switch.behind (s := s.update c' block) hnodup (hp.update hruns.current) hblock hswitch ho
  | @execve n c' stale q o s' hruns hfresh hswitch =>
    have hnodup' : (s.order ++ [n]).Nodup := by
      rw [List.nodup_append]
      refine ⟨hnodup, by simp, ?_⟩
      intro x hx y hy
      rw [List.mem_singleton] at hy
      rintro rfl
      exact hfresh.notMem (hy ▸ hx)
    exact hswitch.behind hnodup' ((hp.enqueue hfresh).update hruns.current) ⟨c, hc, hpassed.append n⟩ ho
  | execveFailed hruns hswitch => exact hswitch.behind hnodup hp ⟨c, hc, hpassed⟩ ho
  | @exit d c' rest hruns horder hnext =>
    rw [hruns.current] at hc
    cases hc
    have hac : a ≠ c := by
      rintro rfl
      exact hexit ⟨rfl, hruns.current⟩
    have hdp : d ≠ p := fun hdp => ho (hdp ▸ rfl)
    obtain ⟨hpassed', hda⟩ := hpassed.erase hnodup horder hnext hdp hac
    exact ⟨⟨d, rfl, hpassed'⟩, fun heq => hda (Option.some.inj heq)⟩

/-- What was just dispatched is where the walk has come to. -/
private theorem Step.behind_target (hnodup : s.order.Nodup) (h : s.Step e o s') (hp : s'.Awaits p)
    (ha : o.target = some a) :
    s'.Behind p a := by
  have hself : s'.current = some a → a ∈ s'.order → s'.Behind p a := by
    intro hcurrent hmem
    have hap : a ≠ p := fun hap => hp.notCurrent (hap ▸ hcurrent)
    exact ⟨a, hcurrent, Ring.Passed.self hp.mem hmem hap⟩
  have hswitched : ∀ {t : Sched}, t.Switch o s' → s'.Behind p a := by
    intro t hswitch
    rcases hswitch.target with ⟨-, rfl, -⟩ | ⟨a', was, rfl, hmem, hcurrent, -⟩
    · cases ha
    · cases ha
      exact hself hcurrent (by rw [hswitch.order]; exact hmem)
  cases h with
  | create hcurrent hfresh => cases ha
  | createFailed => cases ha
  | enableProcesses => cases ha
  | idle => cases ha
  | tick hreads hswitch => exact hswitched hswitch
  | newline hruns => cases ha
  | read hruns => cases ha
  | pollReady hruns => cases ha
  | pollWait hruns hinput hswitch => exact hswitched hswitch
  | execve hruns hfresh hswitch => exact hswitched hswitch
  | execveFailed hruns hswitch => exact hswitched hswitch
  | @exit d c rest hruns horder hnext =>
    cases ha
    refine hself rfl ((exit_mem_iff hnodup horder hnext).2 ⟨p, List.mem_of_mem_erase hp.mem, ?_⟩)
    rintro rfl
    exact hnodup.not_mem_erase hp.mem

end Sched

/-! ### Runs -/

/-- The process at `p` is in the list and ready. -/
def Manager.ReadyAt (m : Manager) (p : Nat) : Prop := m.Listed p ∧ ∃ q, m.proc p = some q ∧ q.state = .ready

/-- The entry `e` jumps to `a`. -/
def Manager.Dispatches (m : Manager) (e : Event) (a : Nat) : Prop := ∃ m' was, m.step e = some (m', .dispatches a was)

/-- The entry `e` ends the process at `a`. -/
def Manager.Exits (m : Manager) (e : Event) (a : Nat) : Prop := e = .exit ∧ m.currentProcess = some a

private theorem Abs.readyAt_iff (h : Abs m s) : m.ReadyAt p ↔ p ∈ s.order ∧ (s.proc p).state = .ready := by
  rw [ReadyAt, h.listed_iff]
  constructor
  · rintro ⟨hp, q, hq, hready⟩
    obtain ⟨-, rfl⟩ := h.mem_of_proc hq
    exact ⟨hp, hready⟩
  · rintro ⟨hp, hready⟩
    exact ⟨hp, _, h.proc_of_mem hp, hready⟩

private theorem target_ne_of_not_dispatches (hstep : m.step e = some (m', o)) (h : ¬ m.Dispatches e p) :
    o.target ≠ some p := by
  intro htarget
  cases o with
  | stays => cases htarget
  | dispatches a was =>
    cases htarget
    exact h ⟨m', was, hstep⟩

private theorem dispatched_cons (hstep : m.step e = some (m', o)) (es : List Event) :
    m.dispatched (e :: es) = o.target.toList ++ m'.dispatched es := by
  rw [Manager.dispatched, hstep]

/-- While `p` awaits its turn, what the walk has passed is not dispatched, and nothing is dispatched twice. -/
private theorem count_of_awaits (h : Abs m s) (hp : s.Awaits p)
    (hrun : Machine.Run exec (fun t i => ¬ t.Dispatches i p ∧ ¬ t.Exits i a) m es m') :
    (s.Behind p a → (m.dispatched es).count a = 0) ∧ (m.dispatched es).count a ≤ 1 := by
  induction hrun generalizing s with
  | nil => simp [Manager.dispatched]
  | @cons m m₁ m₂ i is hC hexec _ ih =>
    obtain ⟨hnot, hexit⟩ := hC
    obtain ⟨o, hstep⟩ := exec_eq hexec
    obtain ⟨s', hstep', h'⟩ := h.step hstep
    have ho := target_ne_of_not_dispatches hstep hnot
    have hp' := hstep'.awaits hp ho
    obtain ⟨hzero, hone⟩ := ih h' hp'
    rw [dispatched_cons hstep, List.count_append]
    have hexit' : ¬ (i = .exit ∧ s.current = some a) := fun he => hexit ⟨he.1, h.current.trans he.2⟩
    constructor
    · intro ha
      obtain ⟨ha', hoa⟩ := hstep'.behind h.list.nodup hp ha ho hexit'
      rw [hzero ha']
      simpa [List.count_eq_zero] using hoa
    · by_cases htarget : o.target = some a
      · rw [hzero (hstep'.behind_target h.list.nodup hp' htarget), htarget]
        simp
      · have hcount : o.target.toList.count a = 0 := by simpa [List.count_eq_zero] using htarget
        omega

/-- From the entry `e` in which `p` becomes ready, and while it is not dispatched (`pre` and `seg`), no process that
lives on through `seg` is dispatched more than once in it. -/
theorem dispatched_count_le_one {pre seg es' : List Event} {m₁ u v : Manager} (hreach : boot.Reaches es m)
    (hbefore : ¬ m.ReadyAt p) (hexec : m.exec e = some m₁) (hafter : m₁.ReadyAt p) (hsplit : e :: es' = pre ++ seg)
    (hpre : Machine.Run exec (fun t i => ¬ t.Dispatches i p) m pre u)
    (hseg : Machine.Run exec (fun t i => ¬ t.Dispatches i p ∧ ¬ t.Exits i a) u seg v) :
    (u.dispatched seg).count a ≤ 1 := by
  obtain ⟨s, h, hreads⟩ := Abs.run_inv (I := Sched.Reads) (fun s e o s' hs _ hstep => hstep.reads hs)
    ⟨by simp [Sched.boot], by simp [Sched.boot]⟩ hreach
  obtain ⟨o, hstep⟩ := exec_eq hexec
  obtain ⟨s₁, hstep', h₁⟩ := h.step hstep
  rw [h.readyAt_iff] at hbefore
  rw [h₁.readyAt_iff] at hafter
  have hawaits : ¬ m.Dispatches e p → s₁.Awaits p := fun hnot =>
    hstep'.awaits_of_becomes_ready hreads hbefore hafter.1 hafter.2 (target_ne_of_not_dispatches hstep hnot)
  cases hpre with
  | nil =>
    -- the step in which `p` becomes ready counts
    cases hseg with
    | nil => cases hsplit
    | cons hC hexec' hseg =>
      cases hsplit
      rw [hexec] at hexec'
      cases hexec'
      have hp := hawaits hC.1
      obtain ⟨hzero, hone⟩ := count_of_awaits h₁ hp hseg
      rw [dispatched_cons hstep, List.count_append]
      by_cases htarget : o.target = some a
      · rw [hzero (hstep'.behind_target h.list.nodup hp htarget), htarget]
        simp
      · have hcount : o.target.toList.count a = 0 := by simpa [List.count_eq_zero] using htarget
        omega
  | cons hC hexec' hpre =>
    cases hsplit
    rw [hexec] at hexec'
    cases hexec'
    obtain ⟨s₂, h₂, hp₂⟩ := Machine.Run.inv (I := fun t => ∃ s, Abs t s ∧ s.Awaits p) (by
      rintro t i t' ⟨s, h, hp⟩ hnot hexec
      obtain ⟨o, hstep⟩ := exec_eq hexec
      obtain ⟨s', hstep', h'⟩ := h.step hstep
      exact ⟨s', h', hstep'.awaits hp (target_ne_of_not_dispatches hstep hnot)⟩) hpre ⟨s₁, h₁, hawaits hC⟩
    exact (count_of_awaits h₂ hp₂ hseg).2

theorem dispatched_count_le_one_tick : ∃ m, boot.Reaches
    [.create (.created 10 .zero), .create (.created 20 .zero), .enableProcesses, .tick] m ∧
    m.step .tick ≠ none ∧ (m.dispatched [.tick]).count 20 ≤ 1 := by
  have hrun : ([.create (.created 10 .zero), .create (.created 20 .zero), .enableProcesses, .tick].foldlM exec
      boot).bind (fun m => (m.step .tick).map fun r => ((m.proc 10).map Process.state, r.2, r.1.processListHead,
        (r.1.proc 10).map Process.state)) =
      some (some .running, .dispatches 20 .ready, some 10, some .ready) := rfl
  obtain ⟨m, hm, hstep⟩ := Option.bind_eq_some_iff.1 hrun
  obtain ⟨⟨m₁, o⟩, hstep, heq⟩ := Option.map_eq_some_iff.1 hstep
  simp only [Prod.mk.injEq] at heq
  obtain ⟨hrunning, rfl, hhead, hready⟩ := heq
  obtain ⟨q, hq, hq'⟩ := Option.map_eq_some_iff.1 hrunning
  obtain ⟨q₁, hq₁, hq₁'⟩ := Option.map_eq_some_iff.1 hready
  have hexec : m.exec .tick = some m₁ := by rw [Manager.exec, hstep]; rfl
  have hbefore : ¬ m.ReadyAt 10 := by
    rintro ⟨-, q', hq', hstate⟩
    rw [hq] at hq'
    cases hq'
    simp [hstate] at hq'
  have hnot : ¬ m.Dispatches .tick 10 := by
    rintro ⟨m', was, hstep'⟩
    rw [hstep] at hstep'
    simp at hstep'
  refine ⟨m, reaches_iff.2 hm, by simp [hstep], ?_⟩
  exact dispatched_count_le_one (reaches_iff.2 hm) hbefore hexec ⟨⟨10, hhead, .refl⟩, q₁, hq₁, hq₁'⟩ rfl (.nil m)
    (.cons ⟨hnot, fun hexit => by cases hexit.1⟩ hexec (.nil m₁))

end DBolOS.Proc
