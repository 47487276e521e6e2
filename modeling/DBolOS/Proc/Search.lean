import DBolOS.Proc.Runs

/-!
# The search for the next process

The loop of `switch_process` has no bound of its own.  While one process of the list makes no system call and does not
fault, that process is ready or runs, so that the loop ends; and then with the first ready process after the current one
(`search_ends`).
-/

namespace DBolOS.Proc

open Manager Linked

variable {m m' m₀ m₁ : Manager} {s s' : Sched} {a b c d : Nat} {e : Event} {o : Outcome} {es : List Event}

/-! ### Where the loop is entered -/

namespace Manager

/-- The state in which `switch_process` enters its loop, and the current process. -/
def switchSearch (m : Manager) : Option (Manager × Nat) := do
  let _ ← m.processListHead
  let c ← m.currentProcess
  let m ← m.modifyProc c setReady
  some (m, c)

/-- The state in which the entry `e` comes to the loop. -/
def searchFrom (m : Manager) : Event → Option (Manager × Nat)
  | .tick => if m.interruptsEnabled then if m.runProcesses then m.switchSearch else none else none
  | .poll => do
    let (c, inTerminalRead) ← m.reading
    let t ← m.activeTerminal
    if inTerminalRead then
      if t.isInputReady then none
      else do
        let m ← m.modifyProc c fun p => { p with state := .blocked }
        m.switchSearch
    else none
  | .execve c => do
    let (_, inTerminalRead) ← m.reading
    if inTerminalRead then none else do
      let m ← m.createProcess c
      m.switchSearch
  | _ => none

/-- An entry by the process that runs: a system call, a turn of the loop in one, or a fault. -/
def Event.byProcess : Event → Bool
  | .read | .poll | .execve _ | .exit => true
  | _ => false

/-- The process at `d` makes no system call and does not fault. -/
def Quiet (d : Nat) (m : Manager) (e : Event) : Prop := m.currentProcess = some d → e.byProcess = false

end Manager

private theorem switchProcess_of_search (h : m.switchSearch = some (m₁, c)) :
    m.switchProcess = (m₁.searchReady m₁.nodes.keys.length c).bind m₁.dispatch := by
  unfold switchSearch at h
  simp only [Option.bind_eq_bind, Option.bind_eq_some_iff, Option.some.injEq, Prod.mk.injEq] at h
  obtain ⟨head, hhead, c', hc, m₂, hm₂, rfl, rfl⟩ := h
  simp only [switchProcess, hhead, hc, hm₂, Option.bind_eq_bind, Option.bind_some]

/-- An entry that comes to the loop is the loop and the jump to what it finds. -/
theorem step_of_search (h : m.searchFrom e = some (m₁, c)) :
    m.step e = (m₁.searchReady m₁.nodes.keys.length c).bind m₁.dispatch := by
  cases e with
  | tick =>
    simp only [searchFrom] at h
    split at h
    · next henabled =>
      split at h
      · next hruns => simp only [Manager.step, henabled, hruns, if_true, switchProcess_of_search h]
      · cases h
    · cases h
  | poll =>
    simp only [searchFrom, Option.bind_eq_bind, Option.bind_eq_some_iff] at h
    obtain ⟨⟨c', reads⟩, hreading, t, ht, h⟩ := h
    split at h
    · next hreads =>
      obtain rfl : reads = true := hreads
      split at h
      · cases h
      · next hinput =>
        obtain ⟨m₂, hm₂, h⟩ := Option.bind_eq_some_iff.1 h
        simp only [Manager.step, hreading, ht, hinput, hm₂, Option.bind_eq_bind, Option.bind_some, if_true,
          Bool.false_eq_true, if_false, switchProcess_of_search h]
    · cases h
  | execve creation =>
    simp only [searchFrom, Option.bind_eq_bind, Option.bind_eq_some_iff] at h
    obtain ⟨⟨c', reads⟩, hreading, h⟩ := h
    split at h
    · cases h
    · next hreads =>
      obtain rfl : reads = false := Bool.not_eq_true reads ▸ hreads
      obtain ⟨m₂, hm₂, h⟩ := Option.bind_eq_some_iff.1 h
      simp only [Manager.step, hreading, hm₂, Option.bind_eq_bind, Option.bind_some, Bool.false_eq_true, if_false,
        switchProcess_of_search h]
  | create => cases h
  | enableProcesses => cases h
  | newline => cases h
  | read => cases h
  | exit => cases h

/-! ### The process that is always ready -/

namespace Sched

/-- When the process at `d` is in the ring, it is ready or runs. -/
structure Idles (d : Nat) (s : Sched) : Prop where
  tidy : s.Tidy
  state : d ∈ s.order → (s.proc d).state = .ready ∨ (s.proc d).state = .running

/-- Nobody else changes the state of a process that is ready or runs, but between the two. -/
private theorem Switch.idle (hd : (s.proc d).state = .ready ∨ (s.proc d).state = .running) (h : s.Switch o s') :
    (s'.proc d).state = .ready ∨ (s'.proc d).state = .running := by
  obtain ⟨st, hst, hcases⟩ := h.proc d
  rw [hst]
  rcases hcases with rfl | hready | hrunning
  · exact hd
  · exact .inl hready
  · exact .inr hrunning

private theorem wakeTerminal_idle {id : UInt32} {p : Process} (h : p.state = .ready ∨ p.state = .running) :
    (wakeTerminal id p).state = .ready ∨ (wakeTerminal id p).state = .running := by
  unfold wakeTerminal
  split
  · exact .inl rfl
  · exact h

private theorem wakeWaiting_idle {pid : UInt32} {p : Process} (h : p.state = .ready ∨ p.state = .running) :
    (wakeWaiting pid p).state = .ready ∨ (wakeWaiting pid p).state = .running := by
  unfold wakeWaiting
  split
  · exact .inl rfl
  · exact h

private theorem Fresh.idle {p : Process} (hp : s.Fresh a p) (hd : d ∈ (s.enqueue a p).order)
    (h : d ∈ s.order → (s.proc d).state = .ready ∨ (s.proc d).state = .running) :
    ((s.enqueue a p).proc d).state = .ready ∨ ((s.enqueue a p).proc d).state = .running := by
  rcases eq_or_ne d a with rfl | hda
  · rw [enqueue_proc_self]
    exact .inl hp.state
  · rw [enqueue_proc_ne hda]
    exact h (by simpa [hda] using hd)

/-- What the other processes and the interrupts do keeps the process at `d` ready or running. -/
private theorem Step.idles (hs : s.Idles d) (hnodup : s.order.Nodup) (hquiet : s.current = some d → e.byProcess = false)
    (h : s.Step e o s') : s'.Idles d := by
  refine ⟨h.tidy hs.tidy hnodup, ?_⟩
  have hne : ∀ {c reads}, s.Runs c reads → e.byProcess = true → d ≠ c := by
    intro c reads hruns hby hdc
    rw [hquiet (hdc ▸ hruns.current)] at hby
    cases hby
  intro hd
  cases h with
  | create hcurrent hfresh => exact hfresh.idle hd hs.state
  | createFailed => exact hs.state hd
  | enableProcesses => exact hs.state hd
  | idle => exact hs.state hd
  | tick hreads hswitch => exact hswitch.idle (hs.state (hswitch.order ▸ hd))
  | newline hruns => exact wakeTerminal_idle (hs.state hd)
  | read hruns =>
    rw [update_proc_ne (hne hruns rfl)]
    exact hs.state hd
  | pollReady hruns =>
    rw [setInputReady_proc, update_proc_ne (hne hruns rfl)]
    exact hs.state hd
  | pollWait hruns hinput hswitch =>
    rw [hswitch.order] at hd
    refine hswitch.idle ?_
    rw [update_proc_ne (hne hruns rfl)]
    exact hs.state hd
  | execve hruns hfresh hswitch =>
    rw [hswitch.order] at hd
    refine hswitch.idle ?_
    rw [update_proc_ne (hne hruns rfl)]
    exact hfresh.idle hd hs.state
  | execveFailed hruns hswitch => exact hswitch.idle (hs.state (hswitch.order ▸ hd))
  | exit hruns horder hnext => exact wakeWaiting_idle (hs.state (List.mem_of_mem_erase hd))

end Sched

/-! ### The loop -/

/-- The search from `b` stops at the first ready process of the ring. -/
private theorem Abs.searchReady_eq {rest skipped after : List Nat} {fuel : Nat} (h : Abs m s)
    (hl : s.order ~r (b :: rest))
    (hsplit : rest ++ [b] = skipped ++ a :: after) (hskipped : ∀ x ∈ skipped, (s.proc x).state ≠ .ready)
    (hready : (s.proc a).state = .ready) (hfuel : skipped.length < fuel) : m.searchReady fuel b = some a := by
  obtain ⟨fuel, rfl⟩ := Nat.exists_eq_succ_of_ne_zero (Nat.ne_zero_of_lt hfuel)
  induction skipped generalizing b rest after fuel with
  | nil =>
    have hmem : a ∈ s.order := by
      rw [hl.mem_iff, ← List.perm_append_singleton b rest |>.mem_iff, hsplit]
      simp
    rw [List.nil_append] at hsplit
    simp [searchReady, h.ringNext hl, hsplit, h.proc_of_mem hmem, hready]
  | cons x skipped ih =>
    rw [List.length_cons] at hfuel
    obtain ⟨fuel, rfl⟩ := Nat.exists_eq_succ_of_ne_zero (by omega : fuel ≠ 0)
    obtain ⟨y, rest', hy⟩ : ∃ y rest', rest ++ [b] = y :: rest' := List.exists_cons_of_ne_nil (by simp)
    obtain ⟨rfl, hrest'⟩ : y = x ∧ rest' = skipped ++ a :: after := by
      rw [hy] at hsplit
      exact List.cons.inj hsplit
    have hl' : s.order ~r (y :: rest') := by
      rw [← hy]
      have hrot : ([b] ++ rest) ~r (rest ++ [b]) := List.isRotated_append
      exact hl.trans hrot
    have hmem : y ∈ s.order := hl'.mem_iff.2 List.mem_cons_self
    have hsplit' : rest' ++ [y] = skipped ++ a :: (after ++ [y]) := by
      rw [hrest']
      simp
    have hstep := ih hl' hsplit' (fun x hx => hskipped x (List.mem_cons_of_mem _ hx)) fuel (by omega)
    have hnot : (s.proc y).state ≠ .ready := hskipped y List.mem_cons_self
    rw [searchReady]
    simp [h.ringNext hl, hy, h.proc_of_mem hmem, hnot, hstep]

/-- With a ready process in the ring the loop ends, with the first one behind `b`. -/
private theorem Abs.searchReady_isSome {rest : List Nat} (h : Abs m s) (hl : s.order ~r (b :: rest)) (hd : d ∈ s.order)
    (hready : (s.proc d).state = .ready) : ∃ a skipped after, m.searchReady m.nodes.keys.length b = some a ∧
      rest ++ [b] = skipped ++ a :: after ∧ (∀ x ∈ skipped, (s.proc x).state ≠ .ready) ∧
      (s.proc a).state = .ready := by
  have hmem : d ∈ rest ++ [b] := (List.perm_append_singleton b rest).mem_iff.2 (hl.mem_iff.1 hd)
  obtain ⟨a, hfind⟩ := Option.isSome_iff_exists.1
    (List.find?_isSome (p := fun x => decide ((s.proc x).state = .ready)) |>.2 ⟨d, hmem, by simpa using hready⟩)
  obtain ⟨ha, skipped, after, hsplit, hskipped⟩ := List.find?_eq_some_iff_append.1 hfind
  have ha' : (s.proc a).state = .ready := by simpa using ha
  have hskipped' : ∀ x ∈ skipped, (s.proc x).state ≠ .ready := by
    intro x hx
    simpa using hskipped x hx
  have hlen : skipped.length < m.nodes.keys.length := by
    have hsum := congrArg List.length hsplit
    have hperm := hl.perm.length_eq
    have hle := h.length_le
    simp at hsum hperm hle ⊢
    omega
  exact ⟨a, skipped, after, h.searchReady_eq hl hsplit hskipped' ha' hlen, hsplit, hskipped', ha'⟩

private theorem Abs.switchSearch (h : Abs m s) (hm : m.switchSearch = some (m₁, c)) :
    s.current = some c ∧ c ∈ s.order ∧ Abs m₁ (s.update c setReady) := by
  unfold Manager.switchSearch at hm
  simp only [Option.bind_eq_bind, Option.bind_eq_some_iff, Option.some.injEq, Prod.mk.injEq] at hm
  obtain ⟨head, -, c', hc, m₂, hm₂, rfl, rfl⟩ := hm
  obtain ⟨hmem, h'⟩ := h.modifyProc hm₂
  exact ⟨h.current.symm.trans hc, hmem, h'⟩

namespace Sched

private theorem Idles.update {f : Process → Process} (hs : s.Idles d) (hcurrent : s.current = some c) (hne : d ≠ c)
    (hf : (f (s.proc c)).state = .running → (s.proc c).state = .running) : (s.update c f).Idles d := by
  refine ⟨hs.tidy.update hcurrent hf, ?_⟩
  intro hd
  rw [update_proc_ne hne]
  exact hs.state hd

/-- A switch finds the process at `d` ready, whether it ran or not. -/
private theorem Idles.ready (hs : s.Idles d) (hcurrent : s.current = some c) (hd : d ∈ s.order) :
    ((s.update c setReady).proc d).state = .ready := by
  rcases eq_or_ne d c with rfl | hne
  · rw [update_proc_self, setReady]
    split
    · rfl
    · next hnot => exact (hs.state hd).resolve_right hnot
  · rw [update_proc_ne hne]
    refine (hs.state hd).resolve_right ?_
    intro hrun
    have hdc := hs.tidy.running d hd hrun
    rw [hcurrent] at hdc
    exact hne (Option.some.inj hdc).symm

end Sched

/-- Where the loop is entered, the process at `d` is ready if it is in the ring. -/
private theorem Abs.searchFrom (h : Abs m s) (hs : s.Idles d) (hquiet : m.Quiet d e)
    (hm : m.searchFrom e = some (m₁, c)) :
    ∃ s₁, Abs m₁ s₁ ∧ c ∈ s₁.order ∧ (d ∈ s₁.order → (s₁.proc d).state = .ready) := by
  have hne : ∀ {c' reads}, s.Runs c' reads → e.byProcess = true → d ≠ c' := by
    intro c' reads hruns hby hdc
    have hnot := hquiet (h.current.trans (hdc ▸ hruns.current))
    rw [hnot] at hby
    cases hby
  have hswitch : ∀ {m' s'}, Abs m' s' → s'.Idles d → m'.switchSearch = some (m₁, c) →
      ∃ s₁, Abs m₁ s₁ ∧ c ∈ s₁.order ∧ (d ∈ s₁.order → (s₁.proc d).state = .ready) := by
    intro m' s' h' hs' hm'
    obtain ⟨hcurrent, hmem, h₁⟩ := h'.switchSearch hm'
    exact ⟨_, h₁, hmem, fun hd => hs'.ready hcurrent hd⟩
  cases e with
  | tick =>
    simp only [Manager.searchFrom] at hm
    split at hm
    · split at hm
      · exact hswitch h hs hm
      · cases hm
    · cases hm
  | poll =>
    simp only [Manager.searchFrom, Option.bind_eq_bind, Option.bind_eq_some_iff] at hm
    obtain ⟨⟨c', reads⟩, hreading, t, -, hm⟩ := hm
    have hruns := h.runs_of_reading hreading
    split at hm
    · split at hm
      · cases hm
      · obtain ⟨m₂, hm₂, hm⟩ := Option.bind_eq_some_iff.1 hm
        exact hswitch (h.modifyProc hm₂).2 (hs.update hruns.current (hne hruns rfl) (fun h => by cases h)) hm
    · cases hm
  | execve creation =>
    simp only [Manager.searchFrom, Option.bind_eq_bind, Option.bind_eq_some_iff] at hm
    obtain ⟨⟨c', reads⟩, hreading, hm⟩ := hm
    have hruns := h.runs_of_reading hreading
    split at hm
    · cases hm
    · obtain ⟨m₂, hm₂, hm₃⟩ := Option.bind_eq_some_iff.1 hm
      cases creation with
      | created a stale =>
        obtain ⟨p, hfresh, -, h'⟩ := h.createProcessFromElf_spec hm₂
        have henqueue : (s.enqueue a p).Idles d := ⟨hs.tidy.enqueue hfresh, fun hd => hfresh.idle hd hs.state⟩
        exact hswitch (h' c' hruns.current) (henqueue.update hruns.current (hne hruns rfl) (fun h => by cases h)) hm₃
      | failed pidTaken =>
        have h' : Abs m₂ s := by
          cases hm₂
          exact ⟨h.list, h.proc, h.current, h.terminalId, h.terminal⟩
        exact hswitch h' hs hm₃
  | create => cases hm
  | enableProcesses => cases hm
  | newline => cases hm
  | read => cases hm
  | exit => cases hm

/-- From a state in which `d` is not in the list yet, let the process at `d` make no system call and not fault.  Wherever
the loop of `switch_process` is then entered with `d` in the list, it ends after as many rounds as there are nodes at
most, with the first ready process behind the current one in the order of the list read as a ring. -/
theorem search_ends {pre : List Event} (hpre : boot.Reaches pre m₀) (hd : ¬ m₀.Listed d)
    (hrun : Machine.Run exec (Quiet d) m₀ es m) (hquiet : m.Quiet d e) (hsearch : m.searchFrom e = some (m₁, c))
    (hlisted : m₁.Listed d) : ∃ a l rest skipped after,
      m₁.searchReady m₁.nodes.keys.length c = some a ∧
      DList m₁.next m₁.prev m₁.processListHead m₁.processListTail l ∧ l ~r (c :: rest) ∧
      rest ++ [c] = skipped ++ a :: after ∧ (∀ b ∈ skipped, ∃ p, m₁.proc b = some p ∧ p.state ≠ .ready) ∧
      ∃ p, m₁.proc a = some p ∧ p.state = .ready := by
  obtain ⟨s₀, h₀, htidy⟩ := Abs.run_inv (I := Sched.Tidy) (fun s e o s' hs hnodup hstep => hstep.tidy hs hnodup)
    ⟨by simp [Sched.boot], by simp [Sched.boot]⟩ hpre
  have hidles : s₀.Idles d := ⟨htidy, fun hmem => absurd (h₀.listed_iff.2 hmem) hd⟩
  obtain ⟨s, h, hs⟩ : ∃ s, Abs m s ∧ s.Idles d := by
    refine Machine.Run.inv (I := fun m => ∃ s, Abs m s ∧ s.Idles d) ?_ hrun ⟨s₀, h₀, hidles⟩
    intro t e t' ht hquiet hexec
    obtain ⟨s, h, hs⟩ := ht
    obtain ⟨o, hstep⟩ := exec_eq hexec
    obtain ⟨s', hstep', h'⟩ := h.step hstep
    exact ⟨s', h', hstep'.idles hs h.list.nodup fun hcurrent => hquiet (h.current.trans hcurrent)⟩
  obtain ⟨s₁, h₁, hc, hready⟩ := h.searchFrom hs hquiet hsearch
  have hmem := h₁.listed_iff.1 hlisted
  obtain ⟨rest, hl⟩ := Ring.exists_rotated_cons hc
  obtain ⟨a, skipped, after, hfind, hsplit, hskipped, ha⟩ := h₁.searchReady_isSome hl hmem (hready hmem)
  have horder : ∀ b ∈ rest ++ [c], b ∈ s₁.order := by
    intro b hb
    exact hl.mem_iff.2 ((List.perm_append_singleton c rest).mem_iff.1 hb)
  refine ⟨a, s₁.order, rest, skipped, after, hfind, h₁.list, hl, hsplit, ?_, ?_⟩
  · intro b hb
    exact ⟨_, h₁.proc_of_mem (horder b (by rw [hsplit]; simp [hb])), hskipped b hb⟩
  · exact ⟨_, h₁.proc_of_mem (horder a (by rw [hsplit]; simp)), ha⟩

/-- Two processes, of which the first one makes no system call: the second is found behind it. -/
theorem search_ends_twoProcesses : ∃ m m₁ a, boot.Reaches
    [.create (.created 10 .zero), .create (.created 20 .zero), .enableProcesses, .tick] m ∧
    m.searchFrom .tick = some (m₁, 10) ∧ m₁.searchReady m₁.nodes.keys.length 10 = some a := by
  have hrun : ([.create (.created 10 .zero), .create (.created 20 .zero), .enableProcesses, .tick].foldlM exec
      boot).map (fun m => ((m.searchFrom .tick).map Prod.snd,
        (m.searchFrom .tick).bind fun r => r.1.processListHead)) = some (some 10, some 10) := rfl
  obtain ⟨m, hm, heq⟩ := Option.map_eq_some_iff.1 hrun
  obtain ⟨hsnd, hhead⟩ := Prod.mk.inj heq
  obtain ⟨⟨m₁, c⟩, hsearch, rfl⟩ := Option.map_eq_some_iff.1 hsnd
  rw [hsearch] at hhead
  have hquiet : Machine.Run exec (Quiet 10) boot
      [.create (.created 10 .zero), .create (.created 20 .zero), .enableProcesses, .tick] m := by
    refine (reaches_iff.2 hm).mono_mem ?_
    intro t e he _ _
    fin_cases he <;> rfl
  have hboot : ¬ boot.Listed 10 := by
    intro h
    obtain ⟨x, hx, -⟩ := h
    cases hx
  have hlisted : m₁.Listed 10 := ⟨10, hhead, Relation.ReflTransGen.refl⟩
  obtain ⟨a, -, -, -, -, hfind, -⟩ :=
    search_ends (Machine.Run.nil boot) hboot hquiet (e := .tick) (fun _ => rfl) hsearch hlisted
  exact ⟨m, m₁, a, reaches_iff.2 hm, hsearch, hfind⟩

end DBolOS.Proc
