import DBolOS.Lib.Run
import DBolOS.Proc.Refines

/-!
# Runs of list operations

Any sequence of calls of `add_to_linked_list` and `remove_from_linked_list`, with nodes allocated and freed in between:
the list from `process_list_head` is that of the nodes added and not yet removed, in the order in which they were added.
-/

namespace DBolOS.Proc

open Manager Linked

/-- What happens to the nodes: one is allocated with any contents, one is freed, and the two operations. -/
inductive ListCall
  | kmalloc (a : Nat) (stale : ProcessNode)
  | kfree (a : Nat)
  | add (newNode : Nat)
  | remove (procNode : Nat)

def Manager.listCall (m : Manager) : ListCall → Option Manager
  | .kmalloc a stale => some { m with nodes := m.nodes.insert a stale }
  | .kfree a => some (m.freeProcNode a)
  | .add newNode => m.addToLinkedList newNode
  | .remove procNode => m.removeFromLinkedList procNode

/-- The nodes added and not yet removed, after one more call. -/
def listed (l : List Nat) : ListCall → List Nat
  | .add newNode => l ++ [newNode]
  | .remove procNode => l.erase procNode
  | _ => l

/-- A node that is added is allocated and not in the list, and only nodes of the list are removed.  Nodes of the list are
neither allocated again nor freed. -/
def Allowed (m : Manager) (l : List Nat) : ListCall → Prop
  | .kmalloc a _ => a ∉ l
  | .kfree a => a ∉ l
  | .add newNode => (m.node newNode).isSome ∧ newNode ∉ l
  | .remove procNode => procNode ∈ l

/-- The calls from `m` on, together with the nodes they leave in the list. -/
def ListRun (m : Manager) (calls : List ListCall) (m' : Manager) (l : List Nat) : Prop :=
  Machine.Run (fun (s : Manager × List Nat) call => (s.1.listCall call).map fun m => (m, listed s.2 call))
    (fun s call => Allowed s.1 s.2 call) (m, []) calls (m', l)

/-- The nodes of `l` are the list, and are allocated. -/
structure Holds (m : Manager) (l : List Nat) : Prop where
  list : DList m.next m.prev m.processListHead m.processListTail l
  node : ∀ a ∈ l, (m.node a).isSome

variable {m m' : Manager} {l : List Nat} {a : Nat} {calls : List ListCall}

private theorem isSome_node_iff : (m.node a).isSome = (m.proc a).isSome := by
  rw [Manager.proc, Option.isSome_map]

/-- A store into an allocated node goes through, and frees none. -/
private theorem modify_total {f : ProcessNode → ProcessNode} (ha : (m.node a).isSome) : ∃ m', m.modify a f = some m' ∧
    OnlyNodes m m' ∧ ∀ b, (m.node b).isSome → (m'.node b).isSome := by
  obtain ⟨n, hn⟩ := Option.isSome_iff_exists.1 ha
  refine ⟨{ m with nodes := m.nodes.insert a (f n) }, ?_, ⟨rfl, rfl, rfl, rfl, rfl⟩, ?_⟩
  · rw [Manager.modify, hn]
    rfl
  · intro b hb
    rw [node_insert]
    split
    · rfl
    · exact hb

private theorem addToLinkedList_isSome (h : Holds m l) (ha : (m.node a).isSome) :
    ∃ m', m.addToLinkedList a = some m' := by
  obtain ⟨m₁, hm₁, honly₁, hkeep₁⟩ := modify_total (f := fun n => { n with next := none, prev := none }) ha
  unfold Manager.addToLinkedList
  simp only [hm₁, honly₁.head, honly₁.tail, Option.bind_eq_bind, Option.bind_some]
  cases hhead : m.processListHead with
  | none => exact ⟨_, rfl⟩
  | some head =>
    have hne : l ≠ [] := by
      intro hl
      rw [h.list.head_eq, hl] at hhead
      cases hhead
    have htail : m.processListTail = some (l.getLast hne) := by rw [h.list.tail_eq, List.getLast?_eq_some_getLast hne]
    obtain ⟨m₂, hm₂, -, hkeep₂⟩ := modify_total (f := fun n => { n with next := some a })
      (hkeep₁ _ (h.node _ (List.getLast_mem hne)))
    obtain ⟨m₃, hm₃, -⟩ := modify_total (f := fun n => { n with prev := some (l.getLast hne) }) (hkeep₂ a (hkeep₁ a ha))
    simp only [htail, Option.bind_some, hm₂, hm₃]
    exact ⟨_, rfl⟩

/-- One call: it goes through, and the list is that of the nodes it leaves. -/
private theorem Holds.listCall {call : ListCall} (h : Holds m l) (hallowed : Allowed m l call) :
    ∃ m', m.listCall call = some m' ∧ Holds m' (listed l call) := by
  cases call with
  | kmalloc a stale =>
    have hkeep : ∀ b ∈ l, ({ m with nodes := m.nodes.insert a stale } : Manager).node b = m.node b := by
      intro b hb
      rw [node_insert, if_neg]
      rintro rfl
      exact hallowed hb
    refine ⟨_, rfl, h.list.congr ?_ ?_, ?_⟩
    · intro b hb
      rw [Manager.next, hkeep b hb]
      rfl
    · intro b hb
      rw [Manager.prev, hkeep b hb]
      rfl
    · intro b hb
      rw [hkeep b hb]
      exact h.node b hb
  | kfree a =>
    have hkeep : ∀ b ∈ l, (m.freeProcNode a).node b = m.node b := by
      intro b hb
      rw [Manager.freeProcNode, node_erase, if_neg]
      rintro rfl
      exact hallowed hb
    refine ⟨_, rfl, h.list.congr ?_ ?_, ?_⟩
    · intro b hb
      rw [Manager.next, hkeep b hb]
      rfl
    · intro b hb
      rw [Manager.prev, hkeep b hb]
      rfl
    · intro b hb
      rw [hkeep b hb]
      exact h.node b hb
  | add newNode =>
    obtain ⟨hnode, hnew⟩ := hallowed
    obtain ⟨m', hm'⟩ := addToLinkedList_isSome h hnode
    obtain ⟨hlist, hproc, -⟩ := addToLinkedList_spec h.list hnew hm'
    refine ⟨m', hm', hlist, ?_⟩
    intro b hb
    rw [isSome_node_iff, hproc, ← isSome_node_iff]
    rcases List.mem_append.1 hb with hb | hb
    · exact h.node b hb
    · rw [List.mem_singleton.1 hb]
      exact hnode
  | remove procNode =>
    obtain ⟨m', hm'⟩ := removeFromLinkedList_isSome h.list hallowed h.node
    obtain ⟨pre, post, rfl⟩ := List.append_of_mem hallowed
    obtain ⟨hlist, hproc, -⟩ := removeFromLinkedList_spec h.list hm'
    have hpre : procNode ∉ pre := by
      intro hmem
      exact (List.nodup_append.1 h.list.nodup).2.2 procNode hmem procNode List.mem_cons_self rfl
    have herase : listed (pre ++ procNode :: post) (.remove procNode) = pre ++ post := by
      rw [listed, List.erase_append_right _ hpre, List.erase_cons_head]
    rw [herase]
    refine ⟨m', hm', hlist, ?_⟩
    intro b hb
    rw [isSome_node_iff, hproc, ← isSome_node_iff]
    refine h.node b ?_
    rcases List.mem_append.1 hb with hb | hb
    · exact List.mem_append_left _ hb
    · exact List.mem_append_right _ (List.mem_cons_of_mem _ hb)

private theorem ListRun.listed_eq (h : ListRun m calls m' l) : l = calls.foldl listed [] := by
  refine Machine.Run.foldl_eq (f := Prod.snd) (g := listed) ?_ h
  intro s call s' hstep
  obtain ⟨m₁, -, rfl⟩ := Option.map_eq_some_iff.1 hstep
  rfl

/-- After any sequence of calls from the empty list, every further call goes through; `next` leads from the head through
the nodes added and not yet removed, in the order of their addition, `prev` from the tail through them in reverse, and
the two ends are `NULL` together, when there are none. -/
theorem processList_represents (hhead : m.processListHead = none) (htail : m.processListTail = none)
    (hrun : ListRun m calls m' l) :
    l = calls.foldl listed [] ∧ Follows m'.next m'.processListHead l ∧ Follows m'.prev m'.processListTail l.reverse ∧
      (m'.processListHead = none ↔ l = []) ∧ (m'.processListTail = none ↔ l = []) ∧
      ∀ call, Allowed m' l call → ∃ m'', m'.listCall call = some m'' := by
  have hstart : Holds m [] := by
    refine ⟨?_, fun a ha => by cases ha⟩
    rw [hhead, htail]
    exact DList.nil _ _
  have hholds : Holds m' l := by
    refine Machine.Run.inv (I := fun s => Holds s.1 s.2) ?_ hrun hstart
    intro s call s' hs hallowed hstep
    obtain ⟨m₁, hm₁, h₁⟩ := hs.listCall hallowed
    rw [hm₁] at hstep
    cases hstep
    exact h₁
  refine ⟨?_, hholds.list.follows_next, hholds.list.follows_prev, ?_, ?_, ?_⟩
  · exact hrun.listed_eq
  · rw [hholds.list.head_eq, List.head?_eq_none_iff]
  · rw [hholds.list.tail_eq, List.getLast?_eq_none_iff]
  · intro call hallowed
    obtain ⟨m₁, hm₁, -⟩ := hholds.listCall hallowed
    exact ⟨m₁, hm₁⟩

/-- Three nodes added, and the one in the middle removed. -/
theorem processList_represents_three : ∃ m, ListRun boot [.kmalloc 10 ⟨.zero, none, none⟩,
      .kmalloc 20 ⟨.zero, none, none⟩, .kmalloc 30 ⟨.zero, none, none⟩, .add 10, .add 20, .add 30, .remove 20] m
      [10, 30] ∧
    Follows m.next m.processListHead [10, 30] := by
  have hrun : ∃ m, ListRun boot [.kmalloc 10 ⟨.zero, none, none⟩, .kmalloc 20 ⟨.zero, none, none⟩,
      .kmalloc 30 ⟨.zero, none, none⟩, .add 10, .add 20, .add 30, .remove 20] m [10, 30] := by
    refine ⟨_, .cons ?_ rfl (.cons ?_ rfl (.cons ?_ rfl (.cons ?_ rfl (.cons ?_ rfl (.cons ?_ rfl (.cons ?_ rfl
      (.nil _)))))))⟩
    · exact List.not_mem_nil
    · exact List.not_mem_nil
    · exact List.not_mem_nil
    · exact ⟨rfl, List.not_mem_nil⟩
    · exact ⟨rfl, by simp [listed]⟩
    · exact ⟨rfl, by simp [listed]⟩
    · exact (List.mem_cons_of_mem 10 List.mem_cons_self : 20 ∈ [10, 20, 30])
  obtain ⟨m, hm⟩ := hrun
  exact ⟨m, hm, (processList_represents rfl rfl hm).2.1⟩

end DBolOS.Proc
