import DBolOS.Heap.Pages
import DBolOS.Heap.Release
import DBolOS.Lib.Run

/-!
# Runs of the heap

Calls of the heap in any order, with what was allocated and not given back, and stores into it between the calls.  As
long as every `kmalloc_pages` and every `kfree` finds the list as it needs it, the list of the headers is intact in every
state (`listInvariant`) and the allocations are separate from each other and from the headers (`allocations_separate`).
-/

namespace DBolOS.Kmalloc

open Linked Heap ByteMem

/-- The heap, and the live pointers with their sizes. -/
structure Session where
  heap : Heap
  live : List (Nat × Nat)

/-- A call, with the pages that can be mapped during it, or a store into an allocation. -/
inductive Call
  | kmalloc (size : Nat) (pages : List Page)
  | kmallocPages (pageAmount : Nat) (pages : List Page)
  | kfree (addr : Nat)
  | store (addr : Nat) (byte : UInt8)

namespace Session

def returned (live : List (Nat × Nat)) (r size : Nat) : List (Nat × Nat) := if r = 0 then live else (r, size) :: live

def step (s : Session) : Call → Option Session
  | .kmalloc size pages => do
    let (r, heap) ← s.heap.kmalloc size pages
    some ⟨heap, returned s.live r size⟩
  | .kmallocPages pageAmount pages => do
    let (r, heap) ← s.heap.kmallocPages pageAmount pages
    some ⟨heap, returned s.live r (pageAmount * PAGE_SIZE)⟩
  | .kfree addr => do
    let heap ← s.heap.kfree addr
    some ⟨heap, s.live.filter (·.1 ≠ addr)⟩
  | .store addr byte => some { s with heap := { s.heap with bytes := writeBytes s.heap.bytes addr [byte] } }

/-- Only live pointers are given back, and only allocated bytes are stored to. -/
def Allowed (s : Session) : Call → Prop
  | .kfree addr => addr ∈ s.live.map Prod.fst
  | .store addr _ => ∃ p ∈ s.live, p.1 ≤ addr ∧ addr < p.1 + p.2
  | _ => True

instance (s : Session) : (call : Call) → Decidable (s.Allowed call)
  | .kfree addr => inferInstanceAs (Decidable (addr ∈ s.live.map Prod.fst))
  | .store addr _ => inferInstanceAs (Decidable (∃ p ∈ s.live, p.1 ≤ addr ∧ addr < p.1 + p.2))
  | .kmalloc .. => .isTrue trivial
  | .kmallocPages .. => .isTrue trivial

/-- The call finds the list as it needs it. -/
def Keeps (s : Session) : Call → Prop
  | .kmallocPages pageAmount pages =>
    Granted s.heap pageAmount pages → Placeable s.heap ∧ LastZero s.heap pageAmount pages
  | .kfree addr => Releasable s.heap (addr - sizeofEntry)
  | _ => True

instance (s : Session) : (call : Call) → Decidable (s.Keeps call)
  | .kmallocPages pageAmount pages => inferInstanceAs (Decidable
      (Granted s.heap pageAmount pages → Placeable s.heap ∧ LastZero s.heap pageAmount pages))
  | .kfree addr => inferInstanceAs (Decidable (Releasable s.heap (addr - sizeofEntry)))
  | .kmalloc .. => .isTrue trivial
  | .store .. => .isTrue trivial

/-- What every run keeps. -/
structure Held (s : Session) (ns : List Nat) : Prop where
  listed : Listed s.heap ns
  rounded : ∀ p ∈ s.live, p.2 ≠ 0 ∧ ∃ a, p.1 = a + 12 ∧ Taken s.heap ns a (align p.2 4)
  nodup : (s.live.map Prod.fst).Nodup

variable {s s' : Session} {h h' : Heap} {ns ns' : List Nat} {r size : Nat} {pages : List Page}

theorem Held.taken (hs : s.Held ns) (p : Nat × Nat) (hp : p ∈ s.live) :
    ∃ a, p.1 = a + 12 ∧ Taken s.heap ns a p.2 := by
  obtain ⟨hpos, a, hpa, ht⟩ := hs.rounded p hp
  exact ⟨a, hpa, ht.mono (Listed.align_facts p.2 hpos).1⟩

/-- An allocation of a block that was not taken. -/
private theorem Held.returned (hs : s.Held ns) (hl : Listed h' ns') (hkeeps : KeepsTaken s.heap h' ns ns')
    (hnew : r ≠ 0 → size ≠ 0 ∧ ∃ c, r = c + 12 ∧ Taken h' ns' c (align size 4) ∧ ∀ n, ¬ Taken s.heap ns c n) :
    Held ⟨h', Session.returned s.live r size⟩ ns' := by
  have hold : ∀ p ∈ s.live, p.2 ≠ 0 ∧ ∃ a, p.1 = a + 12 ∧ Taken h' ns' a (align p.2 4) := by
    intro p hp
    obtain ⟨hpos, a, hpa, ht⟩ := hs.rounded p hp
    exact ⟨hpos, a, hpa, hkeeps a _ ht⟩
  unfold Session.returned
  split
  · exact ⟨hl, hold, hs.nodup⟩
  · rename_i hr
    obtain ⟨hpos, c, hrc, htaken, hfresh⟩ := hnew hr
    refine ⟨hl, ?_, ?_⟩
    · intro p hp
      rcases List.mem_cons.1 hp with rfl | hp
      · exact ⟨hpos, c, hrc, htaken⟩
      · exact hold p hp
    · rw [List.map_cons]
      refine List.nodup_cons.2 ⟨?_, hs.nodup⟩
      intro hmem
      obtain ⟨p, hp, hpr⟩ := List.mem_map.1 hmem
      obtain ⟨a, hpa, ht⟩ := hs.taken p hp
      obtain rfl : a = c := by
        dsimp only at hpr
        omega
      exact hfresh p.2 ht

/-- Pages have a size that `kmalloc` would not round. -/
theorem Held.returnedPages {pageAmount : Nat} (hs : s.Held ns) (hl : Listed h' ns')
    (hkeeps : KeepsTaken s.heap h' ns ns') (hnew : r ≠ 0 → pageAmount ≠ 0 ∧
      ∃ c, r = c + 12 ∧ Taken h' ns' c (pageAmount * 4096) ∧ ∀ n, ¬ Taken s.heap ns c n) :
    Held ⟨h', Session.returned s.live r (pageAmount * 4096)⟩ ns' := by
  have halign : align (pageAmount * 4096) 4 = pageAmount * 4096 := by
    unfold align
    omega
  refine hs.returned hl hkeeps fun hr => ?_
  obtain ⟨hpos, hblock⟩ := hnew hr
  rw [halign]
  exact ⟨by omega, hblock⟩

private theorem Held.store {addr : Nat} {byte : UInt8} (hs : s.Held ns)
    (hin : ∃ p ∈ s.live, p.1 ≤ addr ∧ addr < p.1 + p.2) :
    Held { s with heap := { s.heap with bytes := writeBytes s.heap.bytes addr [byte] } } ns := by
  obtain ⟨p, hp, hlo, hhi⟩ := hin
  obtain ⟨b, hpb, ht⟩ := hs.taken p hp
  have hsize := ht.size
  have hmem : ∀ x ∈ ns, ({ s.heap with bytes := writeBytes s.heap.bytes addr [byte] } : Heap).mem x = s.heap.mem x := by
    intro x hx
    refine mem_congr fun y _ _ => writeBytes_outside _ ?_
    have := hs.listed.le_or_next_le ht hx
    rw [List.length_singleton]
    omega
  obtain ⟨hl, hkeeps⟩ := hs.listed.congr hmem rfl rfl
  refine ⟨hl, ?_, hs.nodup⟩
  intro q hq
  obtain ⟨hpos, a, hqa, hta⟩ := hs.rounded q hq
  exact ⟨hpos, a, hqa, hkeeps a _ hta⟩

private theorem Held.kfree {addr : Nat} (hs : s.Held ns) (haddr : addr ∈ s.live.map Prod.fst)
    (hrel : Releasable s.heap (addr - sizeofEntry)) :
    ∃ heap ns', s.heap.kfree addr = some heap ∧ Held ⟨heap, s.live.filter (·.1 ≠ addr)⟩ ns' := by
  obtain ⟨p, hp, rfl⟩ := List.mem_map.1 haddr
  obtain ⟨b, hpb, ht⟩ := hs.taken p hp
  unfold sizeofEntry at hrel
  rw [hpb, Nat.add_sub_cancel] at hrel
  obtain ⟨heap, ns', hfree, hl', hkeeps⟩ := hs.listed.kfree_spec ht hrel
  rw [← hpb] at hfree
  refine ⟨heap, ns', hfree, hl', ?_, ?_⟩
  · intro q hq
    obtain ⟨hq, hne⟩ := List.mem_filter.1 hq
    obtain ⟨hpos, a, hqa, hta⟩ := hs.rounded q hq
    refine ⟨hpos, a, hqa, hkeeps a _ ?_ hta⟩
    rintro rfl
    rw [decide_eq_true_eq] at hne
    exact hne (hqa.trans hpb.symm)
  · exact hs.nodup.sublist (List.filter_sublist.map Prod.fst)

/-- An allowed call that finds the list as it needs it has a result, and keeps what is held. -/
private theorem Held.step (hs : s.Held ns) {call : Call} (hallowed : s.Allowed call) (hkeeps : s.Keeps call) :
    ∃ s' ns', s.step call = some s' ∧ s'.Held ns' := by
  cases call with
  | kmalloc size pages =>
    obtain ⟨r, h', ns', heq, hl', hkept, hnew⟩ := hs.listed.kmalloc_spec size pages
    refine ⟨_, ns', ?_, hs.returned hl' hkept hnew⟩
    simp only [Session.step, heq, Option.bind_eq_bind, Option.bind_some]
  | kmallocPages pageAmount pages =>
    obtain ⟨r, h', ns', heq, hl', hkept, -, hnew⟩ := hs.listed.kmallocPages_spec hkeeps
    refine ⟨_, ns', ?_, hs.returnedPages hl' hkept fun hr => (hnew hr).2⟩
    simp only [Session.step, heq, Option.bind_eq_bind, Option.bind_some]
  | kfree addr =>
    obtain ⟨heap, ns', heq, hs'⟩ := hs.kfree hallowed hkeeps
    refine ⟨_, ns', ?_, hs'⟩
    simp only [Session.step, heq, Option.bind_eq_bind, Option.bind_some]
  | store addr byte => exact ⟨_, ns, rfl, hs.store hallowed⟩

/-- `heap_init` leaves a free block and the last entry. -/
private theorem heapInit_listed (hinit : static.heapInit pages = some (true, h)) :
    Listed h [heapStart, h.lastEntry] := by
  unfold heapInit at hinit
  split at hinit
  · cases hinit
  rename_i h₁ rest halloc
  obtain ⟨hgrown, -⟩ := allocateHeapPage_grown halloc
  have hend₁ : h₁.currHeapEnd = heapStart + 4096 := hgrown.end_eq
  obtain ⟨h₂, hlast₂, hend₂, hentry₂, hmem₂, -⟩ := setLastEntry_eq (h := h₁) (by omega) (by decide : heapStart < 2 ^ 32)
  have hin : Inside h₂.currHeapEnd heapStart := ⟨Nat.le_refl _, by unfold sizeofEntry; omega⟩
  simp only [hlast₂, setNext, setPrev, setFree, putNext_currHeapEnd, putPrev_currHeapEnd, hin, if_true, Option.bind_eq_bind,
    Option.bind_some, Option.some.injEq, Prod.mk.injEq, true_and] at hinit
  have hend : h.currHeapEnd = heapStart + 4096 := by
    rw [← hinit, putFree_currHeapEnd, putPrev_currHeapEnd, putNext_currHeapEnd, hend₂, hend₁]
  have hlast : h.lastEntry = heapStart + 4084 := by
    rw [← hinit, putFree_lastEntry, putPrev_lastEntry, putNext_lastEntry]
    omega
  have hfirst : h.mem heapStart = ⟨true, h.lastEntry, 0⟩ := by
    rw [hlast, ← hinit, putFree_mem_self, putPrev_mem_self (by omega), show h₂.lastEntry = heapStart + 4084 by omega,
      putNext_mem_self (by decide)]
  have hsecond : h.mem h.lastEntry = ⟨false, 0, heapStart⟩ := by
    rw [hlast, ← hinit, putFree_mem _ (by omega), putPrev_mem _ (by omega), putNext_mem _ (by omega), ← hmem₂, hend₁]
    rfl
  constructor
  · refine List.isChain_pair.2 ⟨?_, ?_, ?_⟩
    · unfold Heap.next
      rw [hfirst]
    · unfold Heap.prev
      rw [hsecond]
    · unfold Apart
      omega
  · rfl
  · rfl
  · unfold Heap.next
    rw [hsecond]
  · unfold Heap.prev
    rw [hfirst]
  · omega
  · rw [hend]
    rfl
  · rw [hend]
    decide

theorem run_held {calls : List Call} (hinit : static.heapInit pages = some (true, h))
    (hrun : Machine.Run step (fun s call => s.Allowed call ∧ s.Keeps call) ⟨h, []⟩ calls s) : ∃ ns, s.Held ns := by
  refine hrun.inv (I := fun s => ∃ ns, s.Held ns) ?_ ⟨_, heapInit_listed hinit, by simp, List.nodup_nil⟩
  rintro s call s' ⟨ns, hs⟩ ⟨hallowed, hkeeps⟩ hstep
  obtain ⟨t, ns', heq, ht⟩ := hs.step hallowed hkeeps
  rw [hstep] at heq
  cases heq
  exact ⟨ns', ht⟩

/-- Runs by evaluation, from a first page of zeros. -/
theorem exists_run {α : Type} {f : Session → α} {v : α} (calls : List Call) (C : Session → Call → Prop)
    [∀ s call, Decidable (C s call)]
    (hrun : ((static.heapInit [fun _ => 0]).bind fun r =>
      (calls.foldlM (fun s call => if C s call then step s call else none) ⟨r.2, []⟩).map fun s => (r.1, f s)) =
      some (true, v)) :
    ∃ h s, static.heapInit [fun _ => 0] = some (true, h) ∧ Machine.Run step C ⟨h, []⟩ calls s ∧ f s = v := by
  obtain ⟨⟨ok, h⟩, hinit, hs⟩ := Option.bind_eq_some_iff.1 hrun
  obtain ⟨s, hs, heq⟩ := Option.map_eq_some_iff.1 hs
  obtain ⟨rfl, hv⟩ := Prod.mk.inj heq
  exact ⟨h, s, hinit, Machine.run_iff_foldlM_guard.2 hs, hv⟩

/-! ### The list -/

/-- What the links from `heap_start` on lead to. -/
structure Visited (h : Heap) (ns : List Nat) : Prop where
  head : ns.head? = some heapStart
  next : ns.IsChain fun x y => h.next x = y
  increasing : ns.Pairwise (· < ·)
  inside : ∀ x ∈ ns, Inside h.currHeapEnd x
  last : ns.getLast? = some h.lastEntry
  lastNext : ∀ x ∈ ns, h.next x = 0 ↔ x = h.lastEntry
  back : ∀ x ∈ ns, h.next x ≠ 0 → h.prev (h.next x) = x
  firstPrev : h.prev heapStart = 0

private theorem visited (hl : Listed h ns) : Visited h ns where
  head := hl.head
  next := hl.linked.imp fun _ _ hseam => hseam.next
  increasing := hl.pairwise.imp fun hxy => by unfold Apart at hxy; omega
  inside := fun x hx => hl.mapped hx
  last := hl.last
  lastNext := fun x hx => hl.next_eq_zero_iff hx
  back := by
    intro x hx hnext
    obtain ⟨front, post, rfl⟩ := List.append_of_mem hx
    obtain ⟨rest, rfl⟩ := hl.post_eq_cons hnext
    exact hl.seam.prev
  firstPrev := hl.headPrev

/-- A block of pages behind a block, and the block given back. -/
def pagesBehind : List Call :=
  [.kmalloc 4072 [], .kmallocPages 1 [fun _ => 0, fun _ => 0], .store (heapStart + 12) 1, .kfree (heapStart + 12)]

/-- A block is given back before a free one: the last entry still links back to that one. -/
def freedBeforeFree : List Call := [.kmalloc 16 [], .kfree (heapStart + 12)]

/-- The headers that the links from `heap_start` on reach. -/
def Reached (h : Heap) (x : Nat) : Prop := Relation.ReflTransGen (fun x y => h.next x = y ∧ y ≠ 0) heapStart x

structure Separate (s : Session) : Prop where
  disjoint : s.live.Pairwise fun p q => p.1 + p.2 ≤ q.1 ∨ q.1 + q.2 ≤ p.1
  inside : ∀ p ∈ s.live, heapStart ≤ p.1 ∧ p.1 + p.2 ≤ s.heap.currHeapEnd
  headers : ∀ p ∈ s.live, ∀ x, Reached s.heap x → x + sizeofEntry ≤ p.1 ∨ p.1 + p.2 ≤ x

theorem mem_of_reached (hl : Listed h ns) {x : Nat} (hx : Reached h x) : x ∈ ns := by
  induction hx with
  | refl => exact List.mem_of_head? hl.head
  | @tail x y _ hxy ih =>
    obtain ⟨rfl, hne⟩ := hxy
    obtain ⟨front, post, rfl⟩ := List.append_of_mem ih
    obtain ⟨rest, rfl⟩ := hl.post_eq_cons hne
    simp

theorem Held.separate (hs : s.Held ns) : s.Separate := by
  have hblock : ∀ p ∈ s.live, ∀ x ∈ ns, x + 12 ≤ p.1 ∨ p.1 + p.2 ≤ x := by
    intro p hp x hx
    obtain ⟨a, hpa, ht⟩ := hs.taken p hp
    have hsize := ht.size
    have := hs.listed.le_or_next_le ht hx
    omega
  refine ⟨?_, ?_, fun p hp x hx => hblock p hp x (mem_of_reached hs.listed hx)⟩
  · refine (List.pairwise_map.1 hs.nodup).imp_of_mem ?_
    intro p q hp hq hne
    obtain ⟨a, hqa, ht⟩ := hs.taken q hq
    obtain ⟨b, hpb, ht'⟩ := hs.taken p hp
    have hpq := hblock p hp a ht.mem
    have hqp := hblock q hq b ht'.mem
    omega
  · intro p hp
    obtain ⟨a, hpa, ht⟩ := hs.taken p hp
    have hstart := hs.listed.start_le ht.mem
    obtain ⟨front, d, post, rfl⟩ := hs.listed.taken_split ht
    have hd := hs.listed.end_le (a := d) (by simp)
    have hnext := hs.listed.seam.next
    have hsize := ht.size
    exact ⟨by omega, by omega⟩

/-- As long as every `kmalloc_pages` and `kfree` finds the list as it needs it, the allocations are separate. -/
theorem allocations_separate {calls : List Call} (hinit : static.heapInit pages = some (true, h))
    (hrun : Machine.Run step (fun s call => s.Allowed call ∧ s.Keeps call) ⟨h, []⟩ calls s) : s.Separate := by
  obtain ⟨ns, hs⟩ := run_held hinit hrun
  exact hs.separate

theorem allocations_separate_pagesBehind : ∃ h s, static.heapInit [fun _ => 0] = some (true, h) ∧
    Machine.Run step (fun s call => s.Allowed call ∧ s.Keeps call) ⟨h, []⟩ (pagesBehind.take 3) s ∧
    s.live = [(heapStart + 4096, 4096), (heapStart + 12, 4072)] ∧ s.Separate := by
  obtain ⟨h, s, hinit, hrun, hlive⟩ := exists_run (f := live) (v := [(heapStart + 4096, 4096), (heapStart + 12, 4072)])
    (pagesBehind.take 3) (fun s call => s.Allowed call ∧ s.Keeps call) (by decide +kernel)
  exact ⟨h, s, hinit, hrun, hlive, allocations_separate hinit hrun⟩

/-- The header that was merged away is taken up again where the heap grows, inside the block allocated over it. -/
def grownOverMerged : List Call := freedBeforeFree ++ [.kmalloc 4072 [], .kmalloc 100 [fun _ => 0]]

theorem not_allocations_separate : ∃ h s, static.heapInit [fun _ => 0] = some (true, h) ∧
    Machine.Run step Allowed ⟨h, []⟩ grownOverMerged s ∧ ¬ s.Separate := by
  obtain ⟨h, s, hinit, hrun, hlive⟩ := exists_run (f := live) (v := [(heapStart + 40, 100), (heapStart + 12, 4072)])
    grownOverMerged Allowed (by decide +kernel)
  refine ⟨h, s, hinit, hrun, ?_⟩
  intro hsep
  have hdisjoint := hsep.disjoint
  rw [hlive] at hdisjoint
  exact absurd hdisjoint (by decide)

end Session

end DBolOS.Kmalloc
