import DBolOS.Lib.DList
import DBolOS.Proc.Sched

/-!
# The process list is the ring

`Abs m s`: the nodes linked from `process_list_head` are the processes of the ring `s` in its order, and no other node
is allocated.  Every entry to the kernel is a step of the ring (`Abs.step`).
-/

namespace DBolOS.Proc

open Manager Linked

structure Abs (m : Manager) (s : Sched) : Prop where
  list : DList m.next m.prev m.processListHead m.processListTail s.order
  proc : ∀ a, m.proc a = if a ∈ s.order then some (s.proc a) else none
  current : m.currentProcess = s.current
  terminalId : m.activeTerminalId = s.terminalId
  terminal : ∃ t, m.activeTerminal = some t ∧ t.id = m.activeTerminalId ∧ t.isInputReady = s.inputReady

variable {m m' : Manager} {s : Sched} {a b c : Nat}

/-! ### Stores into nodes -/

theorem modify_eq {f : ProcessNode → ProcessNode} (h : m.modify a f = some m') :
    ∃ n, m.node a = some n ∧ m' = { m with nodes := m.nodes.insert a (f n) } := by
  unfold Manager.modify at h
  cases hn : m.node a with
  | none => simp [hn] at h
  | some n =>
    simp [hn] at h
    exact ⟨n, rfl, h.symm⟩

theorem node_insert (m : Manager) (a b : Nat) (n : ProcessNode) :
    ({ m with nodes := m.nodes.insert a n } : Manager).node b = if b = a then some n else m.node b := by
  unfold Manager.node
  split
  · rename_i h
    subst h
    exact AList.lookup_insert _
  · rename_i h
    exact AList.lookup_insert_ne h

theorem node_erase (m : Manager) (a b : Nat) :
    ({ m with nodes := m.nodes.erase a } : Manager).node b = if b = a then none else m.node b := by
  unfold Manager.node
  split
  · rename_i h
    subst h
    exact AList.lookup_erase _ _
  · rename_i h
    exact AList.lookup_erase_ne h

theorem node_of_proc {p : Process} (h : m.proc a = some p) : ∃ n, m.node a = some n ∧ n.proc = p := by
  unfold Manager.proc at h
  simpa using h

/-- Nothing but nodes changed. -/
structure OnlyNodes (m m' : Manager) : Prop where
  head : m'.processListHead = m.processListHead
  tail : m'.processListTail = m.processListTail
  current : m'.currentProcess = m.currentProcess
  terminals : m'.terminals = m.terminals
  terminalId : m'.activeTerminalId = m.activeTerminalId

private theorem OnlyNodes.refl (m : Manager) : OnlyNodes m m := ⟨rfl, rfl, rfl, rfl, rfl⟩

private theorem OnlyNodes.trans {m'' : Manager} (h : OnlyNodes m m') (h' : OnlyNodes m' m'') : OnlyNodes m m'' :=
  ⟨h'.head.trans h.head, h'.tail.trans h.tail, h'.current.trans h.current, h'.terminals.trans h.terminals,
    h'.terminalId.trans h.terminalId⟩

/-- What a store that leaves the process of a node alone does to the links. -/
private theorem modify_links {f : ProcessNode → ProcessNode} (h : m.modify a f = some m')
    (hf : ∀ n, (f n).proc = n.proc) :
    OnlyNodes m m' ∧ m'.proc = m.proc ∧ ∃ n, m.node a = some n ∧ m.next a = n.next ∧ m.prev a = n.prev ∧
      m'.next = Function.update m.next a (f n).next ∧ m'.prev = Function.update m.prev a (f n).prev := by
  obtain ⟨n, hn, rfl⟩ := modify_eq h
  refine ⟨⟨rfl, rfl, rfl, rfl, rfl⟩, ?_, n, hn, by rw [Manager.next, hn]; rfl, by rw [Manager.prev, hn]; rfl, ?_, ?_⟩
  all_goals
    funext b
    rcases eq_or_ne b a with rfl | hb
  · simp [Manager.proc, node_insert, hn, hf]
  · simp [Manager.proc, node_insert, hb]
  · simp [Manager.next, node_insert]
  · simp [Manager.next, node_insert, hb]
  · simp [Manager.prev, node_insert]
  · simp [Manager.prev, node_insert, hb]

/-- A store to the `next` link of a node. -/
private theorem modify_next {q : Option Nat} (h : m.modify a (fun n => { n with next := q }) = some m') :
    OnlyNodes m m' ∧ m'.proc = m.proc ∧ m'.next = Function.update m.next a q ∧ m'.prev = m.prev := by
  obtain ⟨honly, hproc, n, -, -, hprev, hnext', hprev'⟩ := modify_links h (fun _ => rfl)
  refine ⟨honly, hproc, hnext', ?_⟩
  rw [hprev', ← hprev, Function.update_eq_self]

/-- A store to the `prev` link of a node. -/
private theorem modify_prev {q : Option Nat} (h : m.modify a (fun n => { n with prev := q }) = some m') :
    OnlyNodes m m' ∧ m'.proc = m.proc ∧ m'.next = m.next ∧ m'.prev = Function.update m.prev a q := by
  obtain ⟨honly, hproc, n, -, hnext, -, hnext', hprev'⟩ := modify_links h (fun _ => rfl)
  refine ⟨honly, hproc, ?_, hprev'⟩
  rw [hnext', ← hnext, Function.update_eq_self]

theorem addToLinkedList_proc (hm : m.addToLinkedList a = some m') : m'.proc = m.proc := by
  unfold Manager.addToLinkedList at hm
  simp only [Option.bind_eq_bind, Option.bind_eq_some_iff] at hm
  obtain ⟨m₁, hm₁, hm⟩ := hm
  have hproc₁ := (modify_links hm₁ (fun _ => rfl)).2.1
  split at hm
  · cases hm
    exact hproc₁
  · simp only [Option.bind_eq_some_iff] at hm
    obtain ⟨t, -, m₂, hm₂, m₃, hm₃, hm⟩ := hm
    cases hm
    exact (modify_prev hm₃).2.1.trans ((modify_next hm₂).2.1.trans hproc₁)

/-- `add_to_linked_list` appends. -/
theorem addToLinkedList_spec {l : List Nat} (h : DList m.next m.prev m.processListHead m.processListTail l) (ha : a ∉ l)
    (hm : m.addToLinkedList a = some m') :
    DList m'.next m'.prev m'.processListHead m'.processListTail (l ++ [a]) ∧ m'.proc = m.proc ∧
      m'.currentProcess = m.currentProcess ∧ m'.terminals = m.terminals ∧ m'.activeTerminalId = m.activeTerminalId := by
  have hproc := addToLinkedList_proc hm
  unfold Manager.addToLinkedList at hm
  simp only [Option.bind_eq_bind, Option.bind_eq_some_iff] at hm
  obtain ⟨m₁, hm₁, hm⟩ := hm
  obtain ⟨hk₁, -, n₁, -, -, -, hnext₁, hprev₁⟩ := modify_links hm₁ (fun _ => rfl)
  rw [hk₁.head] at hm
  split at hm
  · rename_i hhead
    cases hm
    have hl : l = [] := List.head?_eq_none_iff.1 (h.head_eq.symm.trans hhead)
    have htail : m.processListTail = none := by rw [h.tail_eq, hl]; rfl
    have h' : DList m₁.next m₁.prev (m.processListHead.or (some a)) (some a) (l ++ [a]) :=
      h.append ha (by simp [hnext₁]) (by simp [hprev₁, htail]) (by simp [htail]) (by simp [hl]) (by simp [hl])
    rw [hhead] at h'
    exact ⟨h', hproc, hk₁.current, hk₁.terminals, hk₁.terminalId⟩
  · rename_i x hhead
    simp only [Option.bind_eq_some_iff] at hm
    obtain ⟨t, htail, m₂, hm₂, m₃, hm₃, hm⟩ := hm
    cases hm
    rw [hk₁.tail] at htail
    obtain ⟨hk₂, -, hnext₂, hprev₂⟩ := modify_next hm₂
    obtain ⟨hk₃, -, hnext₃, hprev₃⟩ := modify_prev hm₃
    have hk := (hk₁.trans hk₂).trans hk₃
    have hmem : t ∈ l := List.mem_of_getLast? (h.tail_eq.symm.trans htail)
    have hta : t ≠ a := fun hta => ha (hta ▸ hmem)
    have hnext : m₃.next = Function.update (Function.update m.next a none) t (some a) := by
      rw [hnext₃, hnext₂, hnext₁]
    have hprev : m₃.prev = Function.update m.prev a (some t) := by
      rw [hprev₃, hprev₂, hprev₁, Function.update_idem]
    have h' : DList m₃.next m₃.prev (m.processListHead.or (some a)) (some a) (l ++ [a]) := by
      refine h.append ha (by simp [hnext, hta.symm]) (by simp [hprev, htail]) (by simp [hnext, htail]) ?_ ?_
      · intro c hc hct
        have hca : c ≠ a := fun hca => ha (hca ▸ hc)
        have hct' : c ≠ t := fun h => hct (h ▸ htail)
        simp [hnext, hca, hct']
      · intro c hc
        have hca : c ≠ a := fun hca => ha (hca ▸ hc)
        simp [hprev, hca]
    rw [hhead] at h'
    refine ⟨?_, hproc, hk.current, hk.terminals, hk.terminalId⟩
    rw [show ({ m₃ with processListTail := some a } : Manager).processListHead = some x from hk.head.trans hhead]
    exact h'

private theorem modifyIf_next {p q : Option Nat} (h : m.modifyIf p (fun n => { n with next := q }) = some m') :
    OnlyNodes m m' ∧ m'.proc = m.proc ∧ (∀ c, m'.next c = if p = some c then q else m.next c) ∧ m'.prev = m.prev := by
  cases p with
  | none =>
    cases h
    exact ⟨OnlyNodes.refl m, rfl, fun c => by simp, rfl⟩
  | some p =>
    obtain ⟨honly, hproc, hnext, hprev⟩ := modify_next h
    refine ⟨honly, hproc, ?_, hprev⟩
    intro c
    rw [hnext, Function.update_apply]
    simp [eq_comm]

private theorem modifyIf_prev {p q : Option Nat} (h : m.modifyIf p (fun n => { n with prev := q }) = some m') :
    OnlyNodes m m' ∧ m'.proc = m.proc ∧ m'.next = m.next ∧ ∀ c, m'.prev c = if p = some c then q else m.prev c := by
  cases p with
  | none =>
    cases h
    exact ⟨OnlyNodes.refl m, rfl, rfl, fun c => by simp⟩
  | some p =>
    obtain ⟨honly, hproc, hnext, hprev⟩ := modify_prev h
    refine ⟨honly, hproc, hnext, ?_⟩
    intro c
    rw [hprev, Function.update_apply]
    simp [eq_comm]

/-- `remove_from_linked_list` unlinks. -/
theorem removeFromLinkedList_spec {pre post : List Nat}
    (h : DList m.next m.prev m.processListHead m.processListTail (pre ++ a :: post))
    (hm : m.removeFromLinkedList a = some m') :
    DList m'.next m'.prev m'.processListHead m'.processListTail (pre ++ post) ∧ m'.proc = m.proc ∧
      m'.currentProcess = m.currentProcess ∧ m'.terminals = m.terminals ∧ m'.activeTerminalId = m.activeTerminalId := by
  unfold Manager.removeFromLinkedList at hm
  simp only [Option.bind_eq_bind, Option.bind_eq_some_iff] at hm
  obtain ⟨n, hn, m₂, hm₂, hm⟩ := hm
  have hna : m.next a = n.next := by rw [Manager.next, hn]; rfl
  have hpa : m.prev a = n.prev := by rw [Manager.prev, hn]; rfl
  have hnodup := h.nodup
  -- the ends of the list after the two tests
  have hhead : m.processListHead = some a ↔ pre = [] := by
    rw [h.head_eq]
    cases pre with
    | nil => simp
    | cons x pre =>
      have : x ≠ a := by
        rintro rfl
        simp at hnodup
      simp [this]
  have htail : m.processListTail = some a ↔ post = [] := by
    rw [h.tail_eq]
    rcases List.eq_nil_or_concat post with rfl | ⟨post, x, rfl⟩
    · simp
    · have : x ≠ a := by
        rintro rfl
        simp [List.nodup_append] at hnodup
      simp [List.getLast?_cons, this]
  obtain ⟨hk₂, hproc₂, hnext₂, hprev₂⟩ := modifyIf_next hm₂
  obtain ⟨hk₃, hproc₃, hnext₃, hprev₃⟩ := modifyIf_prev hm
  have hk := hk₂.trans hk₃
  have hnext : ∀ c, m'.next c = if m.prev a = some c then m.next a else m.next c := by
    intro c
    rw [hnext₃, hnext₂, hna, hpa]
    rfl
  have hprev : ∀ c, m'.prev c = if m.next a = some c then m.prev a else m.prev c := by
    intro c
    rw [hprev₃, hprev₂, hna, hpa]
    rfl
  have h' : DList m'.next m'.prev (if pre = [] then m.next a else m.processListHead)
      (if post = [] then m.prev a else m.processListTail) (pre ++ post) :=
    h.remove (fun p hp => by rw [hnext, if_pos hp]) (fun q hq => by rw [hprev, if_pos hq])
      (fun c hc => by rw [hnext, if_neg hc]) (fun c hc => by rw [hprev, if_neg hc])
  refine ⟨?_, hproc₃.trans hproc₂, hk.current, hk.terminals, hk.terminalId⟩
  rw [hk.head, hk.tail]
  simp only [hhead, htail, ← hna, ← hpa]
  exact h'

private theorem modifyIf_isSome {q : Option Nat} {f : ProcessNode → ProcessNode}
    (h : ∀ b, q = some b → (m.node b).isSome) : ∃ m', m.modifyIf q f = some m' := by
  cases q with
  | none => exact ⟨m, rfl⟩
  | some b =>
    obtain ⟨n, hn⟩ := Option.isSome_iff_exists.1 (h b rfl)
    exact ⟨_, by rw [modifyIf, Manager.modify, hn]; rfl⟩

theorem removeFromLinkedList_isSome {l : List Nat}
    (h : DList m.next m.prev m.processListHead m.processListTail l) (ha : a ∈ l) (hnode : ∀ b ∈ l, (m.node b).isSome) :
    ∃ m', m.removeFromLinkedList a = some m' := by
  obtain ⟨pre, post, rfl⟩ := List.append_of_mem ha
  obtain ⟨n, hn⟩ := Option.isSome_iff_exists.1 (hnode a ha)
  obtain ⟨hnext, hprev⟩ := h.links pre a post rfl
  rw [Manager.next, hn, Option.bind_some] at hnext
  rw [Manager.prev, hn, Option.bind_some] at hprev
  unfold Manager.removeFromLinkedList
  simp only [hn, Option.bind_eq_bind, Option.bind_some]
  obtain ⟨m₂, hm₂⟩ := modifyIf_isSome (q := n.prev) (f := fun p => { p with next := n.next })
    (m := { m with
      processListHead := if m.processListHead = some a then n.next else m.processListHead
      processListTail := if m.processListTail = some a then n.prev else m.processListTail })
    (fun b hb => hnode b (List.mem_append_left _ (List.mem_of_getLast? (hprev.symm.trans hb))))
  rw [hm₂, Option.bind_some]
  refine modifyIf_isSome ?_
  intro b hb
  have hmem := List.mem_append_right pre (List.mem_cons_of_mem a (List.mem_of_head? (hnext.symm.trans hb)))
  -- the store to the predecessor frees no node
  cases hp : n.prev with
  | none =>
    rw [hp] at hm₂
    cases hm₂
    exact hnode b hmem
  | some p =>
    rw [hp] at hm₂
    obtain ⟨n', -, rfl⟩ := modify_eq hm₂
    rw [node_insert]
    split
    · rfl
    · exact hnode b hmem

namespace Abs

theorem proc_of_mem (h : Abs m s) (ha : a ∈ s.order) : m.proc a = some (s.proc a) := by
  rw [h.proc, if_pos ha]

theorem mem_of_proc {p : Process} (h : Abs m s) (ha : m.proc a = some p) : a ∈ s.order ∧ s.proc a = p := by
  rw [h.proc] at ha
  split at ha
  · rename_i hmem
    exact ⟨hmem, Option.some.inj ha⟩
  · cases ha

theorem node_isSome_iff (h : Abs m s) : (m.node a).isSome ↔ a ∈ s.order := by
  have hp := h.proc a
  unfold Manager.proc at hp
  split at hp
  · rename_i hmem
    obtain ⟨n, hn, -⟩ := Option.map_eq_some_iff.1 hp
    simp [hn, hmem]
  · rename_i hmem
    simp [Option.map_eq_none_iff.1 hp, hmem]

theorem length_le (h : Abs m s) : s.order.length ≤ m.nodes.keys.length := by
  refine (List.subperm_of_subset h.list.nodup ?_).length_le
  intro a ha
  exact AList.mem_keys.1 (AList.lookup_isSome.1 (h.node_isSome_iff.2 ha))

/-- A store into the process at `a`. -/
theorem modifyProc {f : Process → Process} (h : Abs m s) (hm : m.modifyProc a f = some m') :
    a ∈ s.order ∧ Abs m' (s.update a f) := by
  obtain ⟨n, hn, rfl⟩ := modify_eq hm
  obtain ⟨ha, hp⟩ := h.mem_of_proc (a := a) (by rw [Manager.proc, hn]; rfl)
  refine ⟨ha, ?_, ?_, h.current, h.terminalId, h.terminal⟩
  · refine h.list.congr ?_ ?_
    all_goals
      intro b _
      rcases eq_or_ne b a with rfl | hb
    · simp [Manager.next, node_insert, hn]
    · simp [Manager.next, node_insert, hb]
    · simp [Manager.prev, node_insert, hn]
    · simp [Manager.prev, node_insert, hb]
  · intro b
    rcases eq_or_ne b a with rfl | hb
    · simp [Manager.proc, node_insert, ha, hp]
    · have hb' := h.proc b
      rw [Manager.proc] at hb'
      rw [Manager.proc, node_insert, if_neg hb, hb', Sched.update_proc_ne hb]
      rfl

private theorem modifyProc_isSome {f : Process → Process} (h : Abs m s) (ha : a ∈ s.order) :
    ∃ m', m.modifyProc a f = some m' := by
  obtain ⟨n, hn, -⟩ := node_of_proc (h.proc_of_mem ha)
  exact ⟨_, by rw [Manager.modifyProc, Manager.modify, hn]; rfl⟩

theorem ringNext {rest : List Nat} (h : Abs m s) (hl : s.order ~r (a :: rest)) :
    m.ringNext a = (rest ++ [a]).head? := by
  have ha : a ∈ s.order := hl.mem_iff.2 List.mem_cons_self
  obtain ⟨n, hn, -⟩ := node_of_proc (h.proc_of_mem ha)
  rw [← h.list.ring_next hl, Manager.ringNext, Manager.next, hn]
  rfl

/-- The processes of the ring are those of `s'` when the two differ on other addresses only. -/
private theorem congr {s' : Sched} (h : Abs m s) (horder : s'.order = s.order)
    (hproc : ∀ a ∈ s.order, s'.proc a = s.proc a)
    (hcurrent : s'.current = s.current) (hid : s'.terminalId = s.terminalId) (hinput : s'.inputReady = s.inputReady) :
    Abs m s' := by
  refine ⟨horder ▸ h.list, ?_, hcurrent ▸ h.current, hid ▸ h.terminalId, hinput ▸ h.terminal⟩
  intro a
  rw [horder, h.proc]
  split
  · rename_i ha
    rw [hproc a ha]
  · rfl

/-! ### Loops -/

/-- The wake-up loop at `iter :: rest`, after the processes `visited`: it wakes what is left of the ring. -/
private theorem wakeLoop_spec (wake : Process → Process) (rest visited : List Nat) (iter fuel : Nat)
    (h : Abs m s) (hl : s.order ~r (visited ++ iter :: rest)) (hfuel : rest.length < fuel)
    (hc : (visited ++ iter :: rest).head? = some c) :
    ∃ m', wakeLoop wake c fuel iter m = some m' ∧
      Abs m' { s with proc := fun a => if a ∈ iter :: rest then wake (s.proc a) else s.proc a } := by
  induction rest generalizing m s visited iter fuel with
  | nil =>
    obtain ⟨fuel, rfl⟩ := Nat.exists_eq_add_one.2 (Nat.zero_lt_of_lt hfuel)
    have hmem : iter ∈ s.order := hl.mem_iff.2 (by simp)
    obtain ⟨m₁, hm₁⟩ := h.modifyProc_isSome (f := wake) hmem
    have h₁ := (h.modifyProc hm₁).2
    have hrot : (visited ++ [iter]) ~r (iter :: visited) := List.isRotated_append
    have hl' : (s.update iter wake).order ~r (iter :: visited) := hl.trans hrot
    have hnext := h₁.ringNext hl'
    rw [hc] at hnext
    refine ⟨m₁, ?_, ?_⟩
    · simp [wakeLoop, hm₁, hnext]
    · refine h₁.congr rfl ?_ rfl rfl rfl
      intro a _
      rcases eq_or_ne a iter with rfl | ha
      · simp
      · simp [ha, Sched.update_proc_ne ha]
  | cons x rest ih =>
    obtain ⟨fuel, rfl⟩ := Nat.exists_eq_add_one.2 (Nat.zero_lt_of_lt hfuel)
    have hmem : iter ∈ s.order := hl.mem_iff.2 (by simp)
    obtain ⟨m₁, hm₁⟩ := h.modifyProc_isSome (f := wake) hmem
    have h₁ := (h.modifyProc hm₁).2
    have hl' : s.order ~r (iter :: (x :: rest ++ visited)) := by
      have hrot : (visited ++ iter :: x :: rest) ~r (iter :: x :: rest ++ visited) := List.isRotated_append
      exact hl.trans hrot
    have hnext : m₁.ringNext iter = some x := h₁.ringNext hl'
    have hnodup : (visited ++ iter :: x :: rest).Nodup := hl.nodup_iff.1 h.list.nodup
    have hx : x ≠ c := by
      -- the first process of the walk is behind `x`
      rintro rfl
      cases visited with
      | nil => simp_all
      | cons v visited =>
        obtain rfl : v = x := by simpa using hc
        simp at hnodup
    obtain ⟨m', hm', h'⟩ := ih (visited ++ [iter]) x fuel h₁ (by simpa using hl) (by simpa using hfuel)
      (by cases visited <;> simpa using hc)
    refine ⟨m', ?_, ?_⟩
    · simp [wakeLoop, hm₁, hnext, hx, hm']
    · refine h'.congr rfl ?_ rfl rfl rfl
      intro a _
      rcases eq_or_ne a iter with rfl | ha
      · have hout : a ∉ x :: rest := by
          rw [List.nodup_append] at hnodup
          exact (List.nodup_cons.1 hnodup.2.1).1
        simp [hout]
      · simp [ha, Sched.update_proc_ne ha]

/-- A wake-up reaches every process, wherever the current one is. -/
private theorem wakeUp_spec (wake : Process → Process) (h : Abs m s) (hcurrent : s.current = some c)
    (hc : c ∈ s.order) :
    ∃ m', m.wakeUp wake = some m' ∧ Abs m' (s.wake wake) := by
  obtain ⟨rest, hl⟩ := Ring.exists_rotated_cons hc
  have hlen : rest.length < m.nodes.keys.length := by
    have hle := h.length_le
    have heq := hl.perm.length_eq
    rw [List.length_cons] at heq
    omega
  obtain ⟨m', hm', h'⟩ := wakeLoop_spec wake rest [] c m.nodes.keys.length h hl hlen rfl
  refine ⟨m', by rw [Manager.wakeUp, h.current, hcurrent]; exact hm', h'.congr rfl ?_ rfl rfl rfl⟩
  intro a ha
  have hmem : a ∈ c :: rest := hl.mem_iff.1 ha
  simp [hmem]

/-- A wake-up that returns had a current process to start at. -/
theorem wakeUp_eq {wake : Process → Process} (h : Abs m s) (hm : m.wakeUp wake = some m') :
    ∃ c, s.current = some c ∧ c ∈ s.order ∧ Abs m' (s.wake wake) := by
  have hm₀ := hm
  unfold Manager.wakeUp at hm
  rw [h.current] at hm
  cases hc : s.current with
  | none => simp [hc] at hm
  | some c =>
    have hmem : c ∈ s.order := by
      rw [hc] at hm
      simp only [Option.bind_eq_bind, Option.bind_some] at hm
      cases hlen : m.nodes.keys.length with
      | zero => simp [hlen, wakeLoop] at hm
      | succ n =>
        rw [hlen, wakeLoop] at hm
        cases hm₁ : m.modifyProc c wake with
        | none => simp [hm₁] at hm
        | some m₁ => exact (h.modifyProc hm₁).1
    obtain ⟨m'', hm'', h''⟩ := h.wakeUp_spec wake hc hmem
    rw [hm₀] at hm''
    cases hm''
    exact ⟨c, rfl, hmem, h''⟩

/-- The search of `switch_process` finds the first `READY` process behind `b`. -/
private theorem searchReady_spec {rest : List Nat} {b fuel : Nat} (h : Abs m s) (hl : s.order ~r (b :: rest))
    (hm : m.searchReady fuel b = some a) :
    ∃ skipped after, rest ++ [b] = skipped ++ a :: after ∧ (∀ x ∈ skipped, (s.proc x).state ≠ .ready) ∧
      (s.proc a).state = .ready := by
  induction fuel generalizing b rest with
  | zero => simp [searchReady] at hm
  | succ fuel ih =>
    obtain ⟨x, rest', hx⟩ : ∃ x rest', rest ++ [b] = x :: rest' := List.exists_cons_of_ne_nil (by simp)
    have hl' : s.order ~r (x :: rest') := by
      rw [← hx]
      have hrot : ([b] ++ rest) ~r (rest ++ [b]) := List.isRotated_append
      exact hl.trans hrot
    have hmem : x ∈ s.order := hl'.mem_iff.2 List.mem_cons_self
    have hnext : m.ringNext b = some x := by rw [h.ringNext hl, hx]; rfl
    simp only [searchReady, hnext, h.proc_of_mem hmem, Option.bind_eq_bind, Option.bind_some] at hm
    split at hm
    · rename_i hready
      obtain rfl := Option.some.inj hm
      exact ⟨[], rest', hx, by simp, hready⟩
    · rename_i hnot
      obtain ⟨skipped, after, hsplit, hskipped, hready⟩ := ih hl' hm
      -- the walk from `x` comes back to `x` last, which is not ready
      have hax : a ≠ x := fun hax => hnot (hax ▸ hready)
      rcases List.eq_nil_or_concat after with rfl | ⟨after', y, rfl⟩
      · exact absurd (List.append_inj' hsplit rfl).2 (by simpa using hax.symm)
      · rw [List.concat_eq_append, ← List.cons_append, ← List.append_assoc] at hsplit
        obtain ⟨hsplit, -⟩ := List.append_inj' hsplit rfl
        refine ⟨x :: skipped, after', by rw [hx, hsplit]; rfl, ?_, hready⟩
        intro z hz
        rcases List.mem_cons.1 hz with rfl | hz
        · exact hnot
        · exact hskipped z hz

/-! ### Operations -/

private theorem newProcess_spec {stale p : Process} (h : Abs m s) (ha : m.node a = none)
    (hm : m.newProcess stale = some p) :
    s.Fresh a p := by
  have hmem : a ∉ s.order := by
    rw [← h.node_isSome_iff, ha]
    simp
  obtain ⟨t, ht, hid, -⟩ := h.terminal
  unfold Manager.newProcess attachProcessToTerminal at hm
  rw [Manager.activeTerminal] at ht
  simp only [ht, Option.bind_eq_bind, Option.bind_some, hid, ne_eq, not_true, if_false, Option.some.injEq] at hm
  subst hm
  exact ⟨hmem, rfl, rfl, h.terminalId⟩

theorem createProcessFromElf_spec {stale : Process} (h : Abs m s) (hm : m.createProcessFromElf a stale = some m') :
    ∃ p, s.Fresh a p ∧ (s.current = none → Abs m' (s.enqueue a p)) ∧
      ∀ c, s.current = some c → Abs m' ((s.enqueue a p).update c (Sched.waitFor p.pid)) := by
  unfold Manager.createProcessFromElf at hm
  split at hm
  · cases hm
  rename_i ha
  rw [Bool.not_eq_true, Option.isSome_eq_false_iff, Option.isNone_iff_eq_none] at ha
  simp only [Option.bind_eq_bind, Option.bind_eq_some_iff] at hm
  obtain ⟨p, hp, m₂, hm₂, hm⟩ := hm
  have hfresh := h.newProcess_spec ha hp
  refine ⟨p, hfresh, ?_⟩
  set m₁ : Manager := { m with nodes := m.nodes.insert a ⟨p, none, none⟩, nextPid := m.nextPid + 1 } with hm₁
  have hnode : ∀ b, m₁.node b = if b = a then some ⟨p, none, none⟩ else m.node b := by
    intro b
    exact node_insert m a b _
  have hkeep : ∀ b ∈ s.order, m₁.node b = m.node b := by
    intro b hb
    rw [hnode, if_neg]
    rintro rfl
    exact hfresh.notMem hb
  have hlist : DList m₁.next m₁.prev m₁.processListHead m₁.processListTail s.order :=
    h.list.congr (fun b hb => by rw [Manager.next, hkeep b hb]; rfl) (fun b hb => by rw [Manager.prev, hkeep b hb]; rfl)
  obtain ⟨hlist₂, hproc₂, hcurrent₂, hterminals₂, hid₂⟩ := addToLinkedList_spec hlist hfresh.notMem hm₂
  have hactive : m₂.activeTerminal = m.activeTerminal := by
    rw [Manager.activeTerminal, hterminals₂, hid₂]
    rfl
  have h₂ : Abs m₂ (s.enqueue a p) := by
    refine ⟨hlist₂, ?_, hcurrent₂.trans h.current, hid₂.trans h.terminalId, ?_⟩
    · intro b
      rw [hproc₂, Manager.proc, hnode]
      rcases eq_or_ne b a with rfl | hb
      · simp
      · have hb' := h.proc b
        rw [Manager.proc] at hb'
        simp [hb, hb', Sched.enqueue_proc_ne hb]
    · rw [hactive, hid₂]
      exact h.terminal
  rw [hcurrent₂, h.current] at hm
  constructor
  · intro hc
    rw [hc] at hm
    cases hm
    exact h₂
  · intro c hc
    rw [hc] at hm
    exact (h₂.modifyProc hm).2

private theorem dispatch_spec {o : Outcome} (h : Abs m s) (hm : m.dispatch a = some (m', o)) :
    o = .dispatches a (s.proc a).state ∧ Abs m' ((s.update a setRunning).setCurrent a) := by
  unfold Manager.dispatch at hm
  simp only [Option.bind_eq_bind, Option.bind_eq_some_iff, Option.some.injEq, Prod.mk.injEq] at hm
  obtain ⟨p, hp, m₁, hm₁, rfl, rfl⟩ := hm
  obtain ⟨-, rfl⟩ := h.mem_of_proc hp
  have h₁ := (h.modifyProc hm₁).2
  exact ⟨rfl, ⟨h₁.list, h₁.proc, rfl, h₁.terminalId, h₁.terminal⟩⟩

private theorem switchProcess_spec {o : Outcome} (h : Abs m s) (hm : m.switchProcess = some (m', o)) :
    ∃ s', s.Switch o s' ∧ Abs m' s' := by
  unfold Manager.switchProcess at hm
  split at hm
  · rename_i hhead
    cases hm
    exact ⟨s, .empty (List.head?_eq_none_iff.1 (h.list.head_eq.symm.trans hhead)), h⟩
  · rename_i head hhead
    rw [h.current] at hm
    split at hm
    · rename_i hcurrent
      obtain ⟨rest, hrest⟩ := List.head?_eq_some_iff.1 (h.list.head_eq.symm.trans hhead)
      obtain ⟨rfl, h'⟩ := h.dispatch_spec hm
      exact ⟨_, .first hcurrent hrest, h'⟩
    · rename_i c hcurrent
      simp only [Option.bind_eq_bind, Option.bind_eq_some_iff] at hm
      obtain ⟨m₁, hm₁, a, ha, hm⟩ := hm
      obtain ⟨hmem, h₁⟩ := h.modifyProc hm₁
      obtain ⟨rest, hl⟩ := Ring.exists_rotated_cons hmem
      obtain ⟨skipped, after, hskip, hskipped, hready⟩ := h₁.searchReady_spec hl ha
      obtain ⟨rfl, h'⟩ := h₁.dispatch_spec hm
      refine ⟨_, ?_, h'⟩
      rw [hready]
      exact .next hcurrent hl hskip hskipped hready

theorem exitProc_spec {x : Nat} {o : Outcome} (h : Abs m s) (hm : m.exitProc x = some (m', o)) :
    ∃ c a rest, s.current = some c ∧ s.order ~r (c :: rest) ∧ (rest ++ [c]).head? = some a ∧
      o = .dispatches a (wakeWaiting (s.proc x).pid (s.proc a)).state ∧
      Abs m' (((s.wake (wakeWaiting (s.proc x).pid)).remove x).setCurrent a) := by
  unfold Manager.exitProc wakeUpWaitingProcesses at hm
  simp only [Option.bind_eq_bind, Option.bind_eq_some_iff, Option.some.injEq, Prod.mk.injEq] at hm
  obtain ⟨-, -, p, hx, m₁, hm₁, c, hc', a, ha, q, hq, m₂, hm₂, rfl, rfl⟩ := hm
  obtain ⟨hmem, rfl⟩ := h.mem_of_proc hx
  obtain ⟨c', hcurrent, hc, h₁⟩ := h.wakeUp_eq hm₁
  rw [h₁.current, Sched.wake_current, hcurrent] at hc'
  cases hc'
  obtain ⟨rest, hl⟩ := Ring.exists_rotated_cons hc
  have hringNext : m₁.ringNext c = (rest ++ [c]).head? := h₁.ringNext hl
  rw [hringNext] at ha
  obtain ⟨-, rfl⟩ := h₁.mem_of_proc hq
  refine ⟨c, a, rest, hcurrent, hl, ha, rfl, ?_⟩
  obtain ⟨pre, post, hsplit⟩ := List.append_of_mem hmem
  have hnodup := h.list.nodup
  have herase : s.order.erase x = pre ++ post := by
    rw [hsplit] at hnodup ⊢
    have hx : x ∉ pre := by
      rw [List.nodup_append] at hnodup
      exact fun hx => hnodup.2.2 x hx x List.mem_cons_self rfl
    rw [List.erase_append_right _ hx, List.erase_cons_head]
  have hlist : DList m₁.next m₁.prev m₁.processListHead m₁.processListTail (pre ++ x :: post) := hsplit ▸ h₁.list
  obtain ⟨hlist₂, hproc₂, hcurrent₂, hterminals₂, hid₂⟩ :=
    removeFromLinkedList_spec (m := { m₁ with currentProcess := some a }) hlist hm₂
  have hnode : ∀ b, (m₂.freeProcNode x).node b = if b = x then none else m₂.node b := node_erase m₂ x
  have hout : ∀ b ∈ pre ++ post, b ≠ x := by
    rintro b hb rfl
    rw [hsplit] at hnodup
    exact (List.nodup_middle.1 hnodup).notMem hb
  refine ⟨?_, ?_, hcurrent₂, hid₂.trans h₁.terminalId, ?_⟩
  · rw [Sched.setCurrent_order, Sched.remove_order, Sched.wake_order, herase]
    refine hlist₂.congr ?_ ?_
    · intro b hb
      rw [Manager.next, hnode, if_neg (hout b hb)]
      rfl
    · intro b hb
      rw [Manager.prev, hnode, if_neg (hout b hb)]
      rfl
  · intro b
    rw [Manager.proc, hnode]
    rcases eq_or_ne b x with rfl | hb
    · have : b ∉ pre ++ post := fun hb => hout b hb rfl
      simp [herase] at this ⊢
      simp [this]
    · rw [if_neg hb]
      have hb₂ : (m₂.node b).map ProcessNode.proc = m₁.proc b := congrFun hproc₂ b
      rw [hb₂, h₁.proc]
      by_cases hb' : b ∈ s.order <;> simp [List.mem_erase_of_ne hb, hb']
  · have hactive : (m₂.freeProcNode x).activeTerminal = m₁.activeTerminal := by
      rw [Manager.activeTerminal, Manager.activeTerminal]
      simp only [freeProcNode, hterminals₂, hid₂]
    rw [hactive]
    obtain ⟨t, ht, hid, hinput⟩ := h₁.terminal
    exact ⟨t, ht, hid.trans hid₂.symm, hinput⟩

/-- `exit_proc` goes through for each process of the list, whichever process of it is current. -/
theorem exitProc_isSome {x : Nat} (h : Abs m s) (hx : x ∈ s.order) (hcurrent : s.current = some c)
    (hc : c ∈ s.order) : ∃ m' o, m.exitProc x = some (m', o) := by
  obtain ⟨m₁, hm₁, h₁⟩ := h.wakeUp_spec (wakeWaiting (s.proc x).pid) hcurrent hc
  obtain ⟨head, hhead⟩ : ∃ head, m.processListHead = some head := by
    rw [h.list.head_eq]
    cases hl : s.order with
    | nil => simp [hl] at hx
    | cons y l => exact ⟨y, rfl⟩
  obtain ⟨rest, hl⟩ := Ring.exists_rotated_cons hc
  have hringNext : m₁.ringNext c = (rest ++ [c]).head? := h₁.ringNext hl
  obtain ⟨a, ha⟩ : ∃ a, m₁.ringNext c = some a := by
    rw [hringNext]
    exact ⟨_, List.head?_eq_some_head (by simp)⟩
  have hmem : a ∈ s.order := by
    rw [hringNext] at ha
    refine hl.mem_iff.2 ?_
    have := List.mem_of_head? ha
    simp only [List.mem_append, List.mem_cons, List.not_mem_nil, or_false] at this ⊢
    tauto
  obtain ⟨m₂, hm₂⟩ := removeFromLinkedList_isSome (m := { m₁ with currentProcess := some a }) (a := x) h₁.list hx
    (fun b hb => h₁.node_isSome_iff.2 hb)
  refine ⟨m₂.freeProcNode x, .dispatches a (wakeWaiting (s.proc x).pid (s.proc a)).state, ?_⟩
  unfold Manager.exitProc wakeUpWaitingProcesses
  simp only [hhead, h.proc_of_mem hx, hm₁, h₁.current, Sched.wake_current, hcurrent, ha,
    h₁.proc_of_mem (a := a) hmem, hm₂, Option.bind_eq_bind, Option.bind_some]
  rfl

theorem setInputReady_spec {r : Bool} (h : Abs m s) (hm : m.setInputReady r = some m') :
    Abs m' (s.setInputReady r) := by
  obtain ⟨t, ht, hid, -⟩ := h.terminal
  unfold Manager.setInputReady at hm
  simp only [ht, Option.bind_eq_bind, Option.bind_some, Option.some.injEq] at hm
  subst hm
  refine ⟨h.list, h.proc, h.current, h.terminalId, { t with isInputReady := r }, ?_, hid, rfl⟩
  unfold Manager.activeTerminal at ht ⊢
  have hlt : (m.activeTerminalId - 1).toNat < TERMINAL_AMMOUNT := by
    by_contra hge
    rw [Vector.getElem?_eq_none (Nat.not_lt.1 hge)] at ht
    cases ht
  simp [hlt]

/-! ### The ring simulates the process manager -/

theorem runs_of_reading {r : Bool} (h : Abs m s) (hm : m.reading = some (c, r)) : s.Runs c r := by
  unfold Manager.reading at hm
  simp only [Option.bind_eq_bind, Option.bind_eq_some_iff, Option.some.injEq, Prod.mk.injEq] at hm
  obtain ⟨c', hc, p, hp, rfl, rfl⟩ := hm
  obtain ⟨hmem, rfl⟩ := h.mem_of_proc hp
  exact ⟨h.current.symm.trans hc, hmem, rfl⟩

theorem reading_of_runs {r : Bool} (h : Abs m s) (hr : s.Runs c r) : m.reading = some (c, r) := by
  unfold Manager.reading
  rw [h.current, hr.current]
  simp [h.proc_of_mem hr.mem, hr.reads]

/-- Where interrupts are enabled, the current process is not in the loop that reads the terminal. -/
private theorem not_runs_of_interruptsEnabled (h : Abs m s) (hm : m.interruptsEnabled = true) : ¬ s.Runs c true := by
  intro hr
  unfold Manager.interruptsEnabled at hm
  rw [h.reading_of_runs hr] at hm
  cases hm

/-- Every entry to the kernel is a step of the ring. -/
theorem step {e : Event} {o : Outcome} (h : Abs m s) (hm : m.step e = some (m', o)) :
    ∃ s', s.Step e o s' ∧ Abs m' s' := by
  cases e with
  | create c =>
    simp only [Manager.step, Option.map_eq_map] at hm
    split at hm
    · rename_i hguard
      have hcurrent : s.current = none := h.current.symm.trans hguard.1
      obtain ⟨m₁, hm₁, heq⟩ := Option.map_eq_some_iff.1 hm
      cases heq
      cases c with
      | created a stale =>
        obtain ⟨p, hfresh, h', -⟩ := h.createProcessFromElf_spec hm₁
        exact ⟨_, .create hcurrent hfresh, h' hcurrent⟩
      | failed pidTaken =>
        cases hm₁
        exact ⟨s, .createFailed, h.list, h.proc, h.current, h.terminalId, h.terminal⟩
    · cases hm
  | enableProcesses =>
    simp only [Manager.step] at hm
    split at hm
    · cases hm
      exact ⟨s, .enableProcesses, h.list, h.proc, h.current, h.terminalId, h.terminal⟩
    · cases hm
  | tick =>
    simp only [Manager.step] at hm
    split at hm
    · rename_i henabled
      split at hm
      · obtain ⟨s', hswitch, h'⟩ := h.switchProcess_spec hm
        exact ⟨s', .tick (fun c => h.not_runs_of_interruptsEnabled henabled) hswitch, h'⟩
      · cases hm
        exact ⟨s, .idle, h⟩
    · cases hm
  | newline =>
    simp only [Manager.step] at hm
    split at hm
    · rename_i henabled
      simp only [Option.bind_eq_bind, Option.bind_eq_some_iff, Option.map_eq_map, Option.map_eq_some_iff] at hm
      obtain ⟨m₁, hm₁, m₂, hm₂, heq⟩ := hm
      cases heq
      obtain ⟨c, hcurrent, hmem, h'⟩ := (h.setInputReady_spec hm₁).wakeUp_eq hm₂
      have hruns : s.Runs c false := by
        refine ⟨hcurrent, hmem, ?_⟩
        by_contra hreads
        exact h.not_runs_of_interruptsEnabled henabled ⟨hcurrent, hmem, by simpa using hreads⟩
      rw [(h.setInputReady_spec hm₁).terminalId] at h'
      exact ⟨_, .newline hruns, h'⟩
    · cases hm
  | read =>
    simp only [Manager.step, Option.bind_eq_bind, Option.bind_eq_some_iff, Option.map_eq_map] at hm
    obtain ⟨⟨c, r⟩, hr, hm⟩ := hm
    cases r with
    | true => simp at hm
    | false =>
      simp only [Bool.false_eq_true, if_false, Option.map_eq_some_iff] at hm
      obtain ⟨m₁, hm₁, heq⟩ := hm
      cases heq
      exact ⟨_, .read (h.runs_of_reading hr), (h.modifyProc hm₁).2⟩
  | poll =>
    simp only [Manager.step, Option.bind_eq_bind, Option.bind_eq_some_iff, Option.map_eq_map] at hm
    obtain ⟨⟨c, r⟩, hr, t, ht, hm⟩ := hm
    obtain ⟨t', ht', -, hinput⟩ := h.terminal
    rw [ht] at ht'
    cases ht'
    cases r with
    | false => simp at hm
    | true =>
      have hruns := h.runs_of_reading hr
      rw [if_pos rfl] at hm
      split at hm
      · rename_i hready
        simp only [Option.bind_eq_some_iff, Option.map_eq_some_iff] at hm
        obtain ⟨m₁, hm₁, m₂, hm₂, heq⟩ := hm
        cases heq
        exact ⟨_, .pollReady hruns (hinput.symm.trans hready), ((h.setInputReady_spec hm₁).modifyProc hm₂).2⟩
      · rename_i hready
        simp only [Option.bind_eq_some_iff] at hm
        obtain ⟨m₁, hm₁, hm⟩ := hm
        obtain ⟨s', hswitch, h'⟩ := (h.modifyProc hm₁).2.switchProcess_spec hm
        exact ⟨s', .pollWait hruns (by rw [← hinput]; simpa using hready) hswitch, h'⟩
  | execve c =>
    simp only [Manager.step, Option.bind_eq_bind, Option.bind_eq_some_iff] at hm
    obtain ⟨⟨c', r⟩, hr, hm⟩ := hm
    cases r with
    | true => simp at hm
    | false =>
      have hruns := h.runs_of_reading hr
      simp only [Bool.false_eq_true, if_false, Option.bind_eq_some_iff] at hm
      obtain ⟨m₁, hm₁, hm⟩ := hm
      cases c with
      | created a stale =>
        obtain ⟨p, hfresh, -, h'⟩ := h.createProcessFromElf_spec hm₁
        obtain ⟨s', hswitch, h''⟩ := (h' c' hruns.current).switchProcess_spec hm
        exact ⟨s', .execve hruns hfresh hswitch, h''⟩
      | failed pidTaken =>
        cases hm₁
        have h' : Abs { m with nextPid := if pidTaken then m.nextPid + 1 else m.nextPid } s :=
          ⟨h.list, h.proc, h.current, h.terminalId, h.terminal⟩
        obtain ⟨s', hswitch, h''⟩ := h'.switchProcess_spec hm
        exact ⟨s', .execveFailed hruns hswitch, h''⟩
  | exit =>
    simp only [Manager.step, Option.bind_eq_bind, Option.bind_eq_some_iff] at hm
    obtain ⟨⟨c, r⟩, hr, hm⟩ := hm
    cases r with
    | true => simp at hm
    | false =>
      have hruns := h.runs_of_reading hr
      simp only [Bool.false_eq_true, if_false, exitCurrentProcess, Option.bind_eq_bind, Option.bind_eq_some_iff] at hm
      obtain ⟨c', hc', hm⟩ := hm
      rw [h.current, hruns.current] at hc'
      cases hc'
      obtain ⟨c', a, rest, hc', hl, hnext, rfl, h'⟩ := h.exitProc_spec hm
      rw [hruns.current] at hc'
      cases hc'
      exact ⟨_, .exit hruns hl hnext, h'⟩

end Abs

end DBolOS.Proc
