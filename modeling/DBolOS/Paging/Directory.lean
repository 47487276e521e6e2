import DBolOS.Frames
import DBolOS.Paging.Create

/-!
# Mapping through a directory

A `Directory` maps itself and has the kernel's tables behind its entries for the heap.  While one is loaded, a page is
mapped by a store to one entry of a table and at most one entry of the directory (`pagingMapPage_eq`), and the heap
grows within the directory and the kernel's tables (`kmalloc_eq`).
-/

namespace DBolOS.Paging

open Pmm (PmmInfo pmmAllocatePage takeFrames)

/-- The frame of the directory of the kernel. -/
def kernelDirectory : Nat := 6

/-- The frame of the table for the entry `i` of a directory in the kernel's half. -/
def kernelTable (i : Nat) : Nat := 0x1100 + i

/-- The last entry of the directory in frame `c` is the directory itself. -/
structure SelfMapped (mem : Memory) (c : Nat) : Prop where
  present : (mem c 1023).present = true
  self : (mem c 1023).address = c

/-- The directory entries from 774 on are those of the heap. -/
structure Directory (mem : Memory) (c : Nat) : Prop extends SelfMapped mem c where
  tables : ∀ i, 774 ≤ i → i < 1023 → (mem c i).present = true → (mem c i).address = kernelTable i
  apart : c < 0x1100 ∨ 0x1500 ≤ c

variable {mem : Memory} {s : Space} {c v f : Nat} {p p' : PmmInfo}

namespace Space

/-! ### Accesses -/

theorem locate_pdEntry (h : SelfMapped s.mem s.cr3) (hv : v < 0x100000) :
    s.locate (pdEntry v) = some (s.cr3, v / 1024) := by
  have haddress : pdEntry v = 0xFFFFF000 + 4 * (v / 1024) := by
    unfold pdEntry PAGE_DIR_ADDR PAGES_PER_TABLE
    omega
  have hpage : pdEntry v / PAGE_SIZE = 0xFFFFF := by
    rw [haddress]
    unfold PAGE_SIZE
    omega
  have hindex : pdEntry v % PAGE_SIZE / 4 = v / 1024 := by
    rw [haddress]
    unfold PAGE_SIZE
    omega
  have htranslate : translate s.mem s.cr3 0xFFFFF = some s.cr3 := by
    show (if (s.mem s.cr3 1023).present = true then _ else _) = _
    rw [if_pos h.present]
    show (if (s.mem (s.mem s.cr3 1023).address 1023).present = true then _ else _) = _
    rw [h.self, if_pos h.present]
    show some (s.mem (s.mem s.cr3 1023).address 1023).address = _
    rw [h.self, h.self]
  unfold locate
  rw [hpage, hindex, htranslate]
  rfl

theorem locate_ptEntry (h : SelfMapped s.mem s.cr3) (hv : v < 0x100000)
    (hpresent : (s.mem s.cr3 (v / 1024)).present = true) :
    s.locate (ptEntry v) = some ((s.mem s.cr3 (v / 1024)).address, v % 1024) := by
  have haddress : ptEntry v = 0xFFC00000 + v / 1024 * 4096 + 4 * (v % 1024) := by
    unfold ptEntry PAGE_TABLES_ADDR PAGES_PER_TABLE PAGE_SIZE
    omega
  have hpage : ptEntry v / PAGE_SIZE = 0xFFC00 + v / 1024 := by
    rw [haddress]
    unfold PAGE_SIZE
    omega
  have hindex : ptEntry v % PAGE_SIZE / 4 = v % 1024 := by
    rw [haddress]
    unfold PAGE_SIZE
    omega
  have hdir : (0xFFC00 + v / 1024) / PAGES_PER_TABLE = 1023 := by
    unfold PAGES_PER_TABLE
    omega
  have htable : (0xFFC00 + v / 1024) % PAGES_PER_TABLE = v / 1024 := by
    unfold PAGES_PER_TABLE
    omega
  have htranslate : translate s.mem s.cr3 (0xFFC00 + v / 1024) = some (s.mem s.cr3 (v / 1024)).address := by
    unfold translate
    dsimp only
    rw [hdir, htable, if_pos h.present, h.self, if_pos hpresent]
  unfold locate
  rw [hpage, hindex, htranslate]
  rfl

theorem load_eq {address index : Nat} (h : s.locate address = some (f, index)) :
    s.load address = some (s.mem f index) := by
  unfold load
  rw [h]
  rfl

theorem modify_eq {address index : Nat} (h : s.locate address = some (f, index)) (g : PageEntry → PageEntry) :
    s.modify address g = some { s with mem := s.mem.set f index (g (s.mem f index)) } := by
  unfold modify
  rw [h]
  rfl

end Space

private theorem Memory.set_self (mem : Memory) (f i : Nat) : mem.set f i (mem f i) = mem := by
  funext g j
  unfold Memory.set
  split
  · rename_i h
    rw [h.1, h.2]
  · rfl

theorem SelfMapped.set (h : SelfMapped mem c) {i : Nat} (hi : ¬ (f = c ∧ i = 1023)) (e : PageEntry) :
    SelfMapped (mem.set f i e) c := by
  have hself : mem.set f i e c 1023 = mem c 1023 := by
    unfold Memory.set
    rw [if_neg]
    intro ⟨hf, hi'⟩
    exact hi ⟨hf.symm, hi'.symm⟩
  refine ⟨?_, ?_⟩
  · rw [hself]
    exact h.present
  · rw [hself]
    exact h.self

/-! ### Mapping a page -/

/-- The entry of a directory for page `v`, made for the table at `tables` when there is none. -/
def tableFor (mem : Memory) (c v tables : Nat) : PageEntry :=
  if (mem c (v / 1024)).present then mem c (v / 1024) else Space.newTable v tables

/-- The memory after page `v` is mapped through the entry `pde` of the directory in frame `c`. -/
def mapInto (mem : Memory) (c v : Nat) (pde : PageEntry) (phys : Nat) (onlyKernelMode : Bool) : Memory := fun g j =>
  if g = c ∧ j = v / 1024 then { pde with userSupervisor := pde.userSupervisor || !onlyKernelMode }
  else if g = pde.address ∧ j = v % 1024 then Space.mapped phys onlyKernelMode (mem g j)
  else mem g j

namespace Space

theorem pagingMapPage_eq (h : SelfMapped s.mem s.cr3) (hv : v / 1024 < 1023) (phys : Nat) (onlyKernelMode : Bool)
    (tables : Nat) (hne : (tableFor s.mem s.cr3 v tables).address ≠ s.cr3) :
    s.pagingMapPage phys v onlyKernelMode tables =
      some { s with mem := mapInto s.mem s.cr3 v (tableFor s.mem s.cr3 v tables) phys onlyKernelMode } := by
  have hv' : v < 0x100000 := by omega
  obtain ⟨pde, hpde⟩ : ∃ pde, pde = tableFor s.mem s.cr3 v tables := ⟨_, rfl⟩
  rw [← hpde] at hne ⊢
  have hpresent : pde.present = true := by
    rw [hpde]
    unfold tableFor
    split
    · assumption
    · rfl
  obtain ⟨s₁, hs₁⟩ : ∃ s₁, s₁ = { s with mem := s.mem.set s.cr3 (v / 1024) pde } := ⟨_, rfl⟩
  have hentry : s₁.mem s₁.cr3 (v / 1024) = pde := by
    rw [hs₁]
    exact if_pos ⟨rfl, rfl⟩
  have hself₁ : SelfMapped s₁.mem s₁.cr3 := by
    rw [hs₁]
    exact h.set (by omega) pde
  have hpt := modify_eq (locate_ptEntry hself₁ hv' (by rw [hentry]; exact hpresent)) (mapped phys onlyKernelMode)
  rw [hentry] at hpt
  obtain ⟨s₂, hs₂⟩ : ∃ s₂, s₂ =
      { s₁ with mem := s₁.mem.set pde.address (v % 1024) (mapped phys onlyKernelMode (s₁.mem pde.address (v % 1024))) } :=
    ⟨_, rfl⟩
  have hcr3 : s₂.cr3 = s.cr3 := by rw [hs₂, hs₁]
  have hself₂ : SelfMapped s₂.mem s₂.cr3 := by
    rw [hs₂]
    apply hself₁.set
    intro ⟨ha, _⟩
    apply hne
    rw [ha, hs₁]
  have hlast := modify_eq (locate_pdEntry hself₂ hv')
    fun pde => { pde with userSupervisor := pde.userSupervisor || !onlyKernelMode }
  -- the directory entry is there, or made
  have hfirst : s.pagingMapPage phys v onlyKernelMode tables =
      (s₁.modify (ptEntry v) (mapped phys onlyKernelMode)).bind fun s =>
        s.modify (pdEntry v) fun pde => { pde with userSupervisor := pde.userSupervisor || !onlyKernelMode } := by
    unfold pagingMapPage
    unfold tableFor at hpde
    by_cases hp : (s.mem s.cr3 (v / 1024)).present = true
    · rw [if_pos hp] at hpde
      have hs : s₁ = s := by rw [hs₁, hpde, Memory.set_self]
      simp only [load_eq (locate_pdEntry h hv'), Option.bind_eq_bind, Option.bind_some, hp, if_true, hs]
    · rw [if_neg hp] at hpde
      have hmodify := modify_eq (locate_pdEntry h hv') fun _ => newTable v tables
      rw [hpde] at hs₁
      rw [← hs₁] at hmodify
      simp only [load_eq (locate_pdEntry h hv'), Option.bind_eq_bind, Option.bind_some, hp, Bool.false_eq_true, if_false,
        hmodify]
  have hentry₂ : s₂.mem s₂.cr3 (v / 1024) = pde := by
    have hcr3₁ : s₁.cr3 = s.cr3 := by rw [hs₁]
    rw [hcr3, hs₂]
    show (if s.cr3 = pde.address ∧ v / 1024 = v % 1024 then _ else s₁.mem s.cr3 (v / 1024)) = _
    rw [if_neg (fun hand => hne hand.1.symm), ← hcr3₁, hentry]
  rw [hfirst, hpt, ← hs₂, Option.bind_some, hlast, hentry₂, hcr3, hs₂, hs₁]
  congr 2
  funext g j
  unfold mapInto
  by_cases hdir : g = s.cr3 ∧ j = v / 1024
  · rw [if_pos hdir]
    exact if_pos hdir
  · rw [if_neg hdir]
    have hset : s.mem.set s.cr3 (v / 1024) pde g j = s.mem g j := if_neg hdir
    show (if g = s.cr3 ∧ j = v / 1024 then _ else if g = pde.address ∧ j = v % 1024 then _ else
      s.mem.set s.cr3 (v / 1024) pde g j) = _
    rw [if_neg hdir, hset]
    by_cases htable : g = pde.address ∧ j = v % 1024
    · rw [if_pos htable, if_pos htable, ← htable.1, ← htable.2]
      show mapped phys onlyKernelMode (s.mem.set s.cr3 (v / 1024) pde g j) = _
      rw [hset]
    · rw [if_neg htable, if_neg htable]

end Space

/-! ### Heap pages -/

/-- The page lies in the part of the heap below the recursive tables. -/
def HeapPage (v : Nat) : Prop := 774 ≤ v / 1024 ∧ v / 1024 < 1023

/-- The memory after the heap page `v` is mapped to frame `f` while the directory in frame `c` is loaded. -/
def heapMapped (mem : Memory) (c v f : Nat) : Memory := mapInto mem c v (tableFor mem c v 0) f true

theorem Directory.tableFor_address (h : Directory mem c) (hv : HeapPage v) :
    (tableFor mem c v 0).address = kernelTable (v / 1024) := by
  obtain ⟨hlo, hhi⟩ := hv
  unfold tableFor
  split
  · rename_i hpresent
    exact h.tables _ hlo hhi hpresent
  · have hhigher : RELOCATION_OFFSET / PAGE_SIZE ≤ v := by
      show 0xC0000 ≤ v
      omega
    unfold Space.newTable
    dsimp only
    rw [if_pos hhigher]
    unfold bits20 kernelTable KERNEL_PAGE_TABLES_PHYS_ADDR PAGES_PER_TABLE PAGE_SIZE
    omega

/-- Where neither the directory nor a table of the kernel lies, nothing changes. -/
theorem heapMapped_of_ne (h : Directory mem c) (hv : HeapPage v) {g : Nat} (hg : g ≠ c)
    (htable : g < 0x1100 + 774 ∨ 0x1500 ≤ g) : heapMapped mem c v f g = mem g := by
  funext j
  obtain ⟨hlo, hhi⟩ := id hv
  unfold heapMapped mapInto
  rw [if_neg (fun hand => hg hand.1), h.tableFor_address hv, if_neg]
  intro ⟨hgt, _⟩
  unfold kernelTable at hgt
  omega

/-- The directory gets at most one entry. -/
theorem heapMapped_self (h : Directory mem c) (hv : HeapPage v) (j : Nat) :
    heapMapped mem c v f c j = if j = v / 1024 then tableFor mem c v 0 else mem c j := by
  unfold heapMapped mapInto
  by_cases hj : j = v / 1024
  · rw [if_pos ⟨rfl, hj⟩, if_pos hj]
    simp
  · rw [if_neg (fun hand => hj hand.2), if_neg hj, h.tableFor_address hv, if_neg]
    intro ⟨hc, _⟩
    have := h.apart
    obtain ⟨_, hhi⟩ := hv
    unfold kernelTable at hc
    omega

theorem tableFor_present (mem : Memory) (c v tables : Nat) : (tableFor mem c v tables).present = true := by
  unfold tableFor
  split
  · assumption
  · rfl

/-- An entry that is there stays. -/
theorem heapMapped_of_present (h : Directory mem c) (hv : HeapPage v) {j : Nat} (hj : (mem c j).present = true) :
    heapMapped mem c v f c j = mem c j := by
  rw [heapMapped_self h hv]
  split
  · rename_i heq
    unfold tableFor
    rw [← heq, if_pos hj]
  · rfl

theorem Directory.heapMapped (h : Directory mem c) (hv : HeapPage v) : Directory (heapMapped mem c v f) c := by
  have hself : Paging.heapMapped mem c v f c 1023 = mem c 1023 := heapMapped_of_present h hv h.present
  refine ⟨⟨?_, ?_⟩, ?_, h.apart⟩
  · rw [hself]
    exact h.present
  · rw [hself]
    exact h.self
  · intro i hlo hhi
    rw [heapMapped_self h hv]
    split
    · rename_i hi
      rw [hi, h.tableFor_address hv]
      intro _
      rfl
    · exact h.tables i hlo hhi

theorem translate_eq_some {pd x : Nat} : translate mem pd v = some x ↔
    (mem pd (v / 1024)).present = true ∧ (mem (mem pd (v / 1024)).address (v % 1024)).present = true ∧
      (mem (mem pd (v / 1024)).address (v % 1024)).address = x := by
  unfold translate PAGES_PER_TABLE
  dsimp only
  by_cases hd : (mem pd (v / 1024)).present = true
  · by_cases ht : (mem (mem pd (v / 1024)).address (v % 1024)).present = true
    · simp [hd, ht]
    · simp [hd, ht]
  · simp [hd]

private theorem translate_heapMapped (h : Directory mem c) (hv : HeapPage v) :
    translate (heapMapped mem c v f) c v = some (bits20 f) := by
  rw [translate_eq_some, heapMapped_self h hv, if_pos rfl, h.tableFor_address hv]
  have htable : kernelTable (v / 1024) ≠ c := by
    have := h.apart
    obtain ⟨_, hhi⟩ := hv
    unfold kernelTable
    omega
  have hentry : heapMapped mem c v f (kernelTable (v / 1024)) (v % 1024) =
      Space.mapped f true (mem (kernelTable (v / 1024)) (v % 1024)) := by
    unfold heapMapped mapInto
    rw [if_neg (fun hand => htable hand.1), h.tableFor_address hv, if_pos ⟨rfl, rfl⟩]
  rw [hentry]
  exact ⟨tableFor_present _ _ _ _, rfl, rfl⟩

private theorem translate_heapMapped_ne (h : Directory mem c) (hv : HeapPage v) {q x : Nat}
    (hq : translate mem c q = some x)
    (hne : (mem c (q / 1024)).address ≠ c)
    (hapart : (mem c (q / 1024)).address ≠ kernelTable (v / 1024) ∨ q % 1024 ≠ v % 1024) :
    translate (heapMapped mem c v f) c q = some x := by
  rw [translate_eq_some] at hq ⊢
  obtain ⟨hdir, htable⟩ := hq
  rw [heapMapped_of_present h hv hdir]
  have hentry : heapMapped mem c v f (mem c (q / 1024)).address (q % 1024) =
      mem (mem c (q / 1024)).address (q % 1024) := by
    unfold heapMapped mapInto
    rw [if_neg (fun hand => hne hand.1), h.tableFor_address hv, if_neg]
    intro ⟨ha, hj⟩
    obtain hapart | hapart := hapart
    · exact hapart ha
    · exact hapart hj
  rw [hentry]
  exact ⟨hdir, htable⟩

private theorem translate_heapMapped_heap (h : Directory mem c) (hv : HeapPage v) {q x : Nat} (hq : HeapPage q)
    (hqv : q ≠ v)
    (hx : translate mem c q = some x) : translate (heapMapped mem c v f) c q = some x := by
  have haddress := h.tables _ hq.1 hq.2 (translate_eq_some.1 hx).1
  obtain ⟨hqlo, hqhi⟩ := hq
  have := h.apart
  apply translate_heapMapped_ne h hv hx
  · rw [haddress]
    unfold kernelTable
    omega
  · rw [haddress]
    unfold kernelTable
    omega

/-! ### Growing the heap -/

/-- The memory after the heap pages from `v` on are mapped to the frames `fs`. -/
def growMem (mem : Memory) (c : Nat) : Nat → List Nat → Memory
  | _, [] => mem
  | v, f :: fs => growMem (heapMapped mem c v f) c (v + 1) fs

/-- `n` pages of the heap from `v` on. -/
def HeapPages (v n : Nat) : Prop := ∀ q, v ≤ q → q < v + n → HeapPage q

theorem HeapPages.head {n : Nat} (h : HeapPages v (n + 1)) : HeapPage v := h v (Nat.le_refl _) (by omega)

private theorem HeapPages.tail {n : Nat} (h : HeapPages v (n + 1)) : HeapPages (v + 1) n := by
  intro q hlo hhi
  exact h q (by omega) (by omega)

theorem Directory.growMem {fs : List Nat} (h : Directory mem c) (hv : HeapPages v fs.length) :
    Directory (growMem mem c v fs) c := by
  induction fs generalizing mem v with
  | nil => exact h
  | cons f fs ih => exact ih (h.heapMapped hv.head) hv.tail

theorem growMem_append (mem : Memory) (c v : Nat) (fs gs : List Nat) :
    growMem mem c v (fs ++ gs) = growMem (growMem mem c v fs) c (v + fs.length) gs := by
  induction fs generalizing mem v with
  | nil => rfl
  | cons f fs ih =>
    rw [List.length_cons, Nat.add_comm fs.length 1, ← Nat.add_assoc]
    exact ih _ _

theorem growMem_of_ne {fs : List Nat} (h : Directory mem c) (hv : HeapPages v fs.length) {g : Nat} (hg : g ≠ c)
    (htable : g < 0x1100 + 774 ∨ 0x1500 ≤ g) : growMem mem c v fs g = mem g := by
  induction fs generalizing mem v with
  | nil => rfl
  | cons f fs ih => exact (ih (h.heapMapped hv.head) hv.tail).trans (heapMapped_of_ne h hv.head hg htable)

theorem growMem_of_present {fs : List Nat} (h : Directory mem c) (hv : HeapPages v fs.length) {j : Nat}
    (hj : (mem c j).present = true) : growMem mem c v fs c j = mem c j := by
  induction fs generalizing mem v with
  | nil => rfl
  | cons f fs ih =>
    have hstep : heapMapped mem c v f c j = mem c j := heapMapped_of_present h hv.head hj
    exact (ih (h.heapMapped hv.head) hv.tail (by rw [hstep]; exact hj)).trans hstep

/-- Only the entries of the new pages change. -/
theorem growMem_of_ne_entry {fs : List Nat} (h : Directory mem c) (hv : HeapPages v fs.length) {j : Nat}
    (hj : ∀ q, v ≤ q → q < v + fs.length → j ≠ q / 1024) : growMem mem c v fs c j = mem c j := by
  induction fs generalizing mem v with
  | nil => rfl
  | cons f fs ih =>
    rw [List.length_cons] at hj
    have hstep : heapMapped mem c v f c j = mem c j := by
      rw [heapMapped_self h hv.head, if_neg (hj v (Nat.le_refl _) (by omega))]
    refine (ih (h.heapMapped hv.head) hv.tail ?_).trans hstep
    intro q hlo hhi
    exact hj q (by omega) (by omega)

/-- Where all tables are there the directory stays as it is. -/
theorem growMem_self {fs : List Nat} (h : Directory mem c) (hv : HeapPages v fs.length)
    (hpresent : ∀ q, v ≤ q → q < v + fs.length → (mem c (q / 1024)).present = true) :
    growMem mem c v fs c = mem c := by
  funext j
  by_cases hj : (mem c j).present = true
  · exact growMem_of_present h hv hj
  · apply growMem_of_ne_entry h hv
    intro q hlo hhi heq
    rw [heq] at hj
    exact hj (hpresent q hlo hhi)

/-- The entries of the pages that are not new stay as they are. -/
theorem growMem_table {fs : List Nat} (h : Directory mem c) (hv : HeapPages v fs.length) {q : Nat} (hq : HeapPage q)
    (hlt : q < v ∨ v + fs.length ≤ q) :
    growMem mem c v fs (kernelTable (q / 1024)) (q % 1024) = mem (kernelTable (q / 1024)) (q % 1024) := by
  induction fs generalizing mem v with
  | nil => rfl
  | cons f fs ih =>
    rw [List.length_cons] at hlt
    refine (ih (h.heapMapped hv.head) hv.tail (by omega)).trans ?_
    obtain ⟨hqlo, hqhi⟩ := hq
    have := h.apart
    unfold heapMapped mapInto
    rw [if_neg, h.tableFor_address hv.head, if_neg]
    · unfold kernelTable
      omega
    · unfold kernelTable
      omega

theorem translate_growMem_heap {fs : List Nat} (h : Directory mem c) (hv : HeapPages v fs.length) {q x : Nat}
    (hq : HeapPage q) (hlt : q < v ∨ v + fs.length ≤ q) (hx : translate mem c q = some x) :
    translate (growMem mem c v fs) c q = some x := by
  induction fs generalizing mem v with
  | nil => exact hx
  | cons f fs ih =>
    rw [List.length_cons] at hlt
    apply ih (h.heapMapped hv.head) hv.tail
    · omega
    · exact translate_heapMapped_heap h hv.head hq (by omega) hx

/-- Page `k` of the new ones is mapped to frame `k`. -/
theorem translate_growMem {fs : List Nat} (h : Directory mem c) (hv : HeapPages v fs.length) {k : Nat}
    (hk : fs[k]? = some f) : translate (growMem mem c v fs) c (v + k) = some (bits20 f) := by
  induction fs generalizing mem v k with
  | nil => cases hk
  | cons f' fs ih =>
    cases k with
    | zero =>
      cases hk
      apply translate_growMem_heap (h.heapMapped hv.head) hv.tail hv.head
      · left
        omega
      · exact translate_heapMapped h hv.head
    | succ k =>
      have := ih (h.heapMapped (f := f') hv.head) hv.tail hk
      rw [Nat.add_right_comm] at this
      exact this

namespace Space

theorem allocateHeapPage_eq (h : Directory s.mem s.cr3) (hv : HeapPage s.currHeapEnd)
    (hp : pmmAllocatePage s.pmm = some (f, p)) (hf : f ≠ 0) :
    s.allocateHeapPage = some (true,
      { s with
        mem := heapMapped s.mem s.cr3 s.currHeapEnd f
        pmm := p
        currHeapEnd := s.currHeapEnd + 1 }) := by
  have hroom : ¬ KERNEL_HEAP_END ≤ s.currHeapEnd := by
    obtain ⟨_, hhi⟩ := hv
    show ¬ 0xFFFFF ≤ s.currHeapEnd
    omega
  have hne : (tableFor s.mem s.cr3 s.currHeapEnd 0).address ≠ s.cr3 := by
    rw [h.tableFor_address hv]
    have := h.apart
    obtain ⟨_, hhi⟩ := hv
    unfold kernelTable
    omega
  have hmap := pagingMapPage_eq (s := { s with pmm := p }) h.toSelfMapped hv.2 f true 0 hne
  unfold allocateHeapPage
  rw [if_neg hroom]
  unfold allocateKernelVirtualPage pagingMapKernelPage
  simp only [hp, Option.bind_eq_bind, Option.bind_some, hf, if_false, hmap, if_true]
  rfl

/-- The heap gets a page, or stays as it is when no frame is left. -/
theorem allocateHeapPage_cases {allocated : Bool} {s' : Space} (h : Directory s.mem s.cr3)
    (hzero : Pmm.occupied s.pmm 0 = true) (hv : (takeFrames 1 s.pmm).isSome = true → HeapPage s.currHeapEnd)
    (hs : s.allocateHeapPage = some (allocated, s')) :
    (allocated = false ∧ s' = s ∧ takeFrames 1 s.pmm = none) ∨
    ∃ f p, allocated = true ∧ pmmAllocatePage s.pmm = some (f, p) ∧ f ≠ 0 ∧ HeapPage s.currHeapEnd ∧ s' =
      { s with
        mem := heapMapped s.mem s.cr3 s.currHeapEnd f
        pmm := p
        currHeapEnd := s.currHeapEnd + 1 } := by
  by_cases hframe : (takeFrames 1 s.pmm).isSome = true
  · right
    obtain ⟨⟨fs, p⟩, hfs⟩ := Option.isSome_iff_exists.1 hframe
    obtain ⟨f, p₁, -, hf, hne, -, -⟩ := Pmm.takeFrames_succ.1 hfs
    rw [allocateHeapPage_eq h (hv hframe) hf hne] at hs
    cases hs
    exact ⟨f, p₁, rfl, hf, hne, hv hframe, rfl⟩
  · left
    rw [Bool.not_eq_true, Option.isSome_eq_false_iff, Option.isNone_iff_eq_none] at hframe
    suffices hsame : allocated = false ∧ s' = s from ⟨hsame.1, hsame.2, hframe⟩
    unfold allocateHeapPage at hs
    split at hs
    · cases hs
      exact ⟨rfl, rfl⟩
    obtain ⟨⟨allocated', s₁⟩, hkernel, hs⟩ := Option.bind_eq_some_iff.1 hs
    obtain ⟨⟨f, p⟩, hf, hkernel⟩ := Option.bind_eq_some_iff.1 hkernel
    have hf0 : f = 0 := by
      by_contra hne
      rw [Pmm.takeFrames_succ.2 ⟨f, p, [], hf, hne, rfl, rfl⟩] at hframe
      cases hframe
    -- the manager is as it was: frame `0` is never free
    obtain ⟨-, rfl⟩ | ⟨hfree, -⟩ := Pmm.pmmAllocatePage_cases hf
    · simp only [hf0, if_true, Option.some.injEq, Prod.mk.injEq] at hkernel
      obtain ⟨rfl, rfl⟩ := hkernel
      cases hs
      exact ⟨rfl, rfl⟩
    · rw [hf0, hzero] at hfree
      cases hfree

/-- Growing the heap by the frames that are there. -/
theorem kmalloc_eq {n : Nat} {fs : List Nat} (h : Directory s.mem s.cr3)
    (hv : HeapPages s.currHeapEnd n) (hfs : takeFrames n s.pmm = some (fs, p)) :
    kmalloc n s = some (true,
      { s with
        mem := growMem s.mem s.cr3 s.currHeapEnd fs
        pmm := p
        currHeapEnd := s.currHeapEnd + n }) := by
  induction n generalizing s fs with
  | zero =>
    cases hfs
    rfl
  | succ n ih =>
    obtain ⟨⟨f, p₁⟩, hf, hfs⟩ := Option.bind_eq_some_iff.1 hfs
    dsimp only at hfs
    split at hfs
    · cases hfs
    rename_i hne
    obtain ⟨⟨fs', p₂⟩, hfs', heq⟩ := Option.bind_eq_some_iff.1 hfs
    cases heq
    have hpage := hv.head
    unfold kmalloc
    rw [allocateHeapPage_eq h hpage hf hne]
    simp only [Option.bind_eq_bind, Option.bind_some, if_true]
    rw [ih (s := { s with mem := heapMapped s.mem s.cr3 s.currHeapEnd f, pmm := p₁, currHeapEnd := s.currHeapEnd + 1 })
      (h.heapMapped hpage) hv.tail hfs']
    simp only [growMem, Nat.add_assoc, Nat.add_comm 1 n]

private theorem kmallocLoop_eq {n : Nat} {s' : Space} (h : kmalloc n s = some (true, s')) (i : Nat) :
    kmallocLoop n i s = some (true, s') := by
  induction n generalizing s i with
  | zero =>
    cases h
    rfl
  | succ n ih =>
    obtain ⟨⟨allocated, s₁⟩, hs₁, h⟩ := Option.bind_eq_some_iff.1 h
    unfold kmallocLoop
    rw [hs₁]
    dsimp only at h
    split at h
    · rename_i hallocated
      simp only [Option.bind_eq_bind, Option.bind_some, hallocated, if_true]
      exact ih h (i + 1)
    · cases h

theorem kmallocPages_eq {n : Nat} {fs : List Nat} (h : Directory s.mem s.cr3) (hn : 0 < n) (hmax : n ≤ 0x3E7FF)
    (hv : HeapPages s.currHeapEnd (n + 1))
    (hfs : takeFrames (n + 1) s.pmm = some (fs, p)) :
    s.kmallocPages n = some (some s.currHeapEnd,
      { s with
        mem := growMem s.mem s.cr3 s.currHeapEnd fs
        pmm := p
        currHeapEnd := s.currHeapEnd + (n + 1) }) := by
  have hamount : ¬ (n = 0 ∨ KERNEL_HEAP_END - KERNEL_CODE_END < n) := by
    have : KERNEL_HEAP_END - KERNEL_CODE_END = 0x3E7FF := rfl
    omega
  unfold kmallocPages
  rw [if_neg hamount, kmallocLoop_eq (kmalloc_eq h hv hfs) 0]
  simp

end Space

end DBolOS.Paging
