import DBolOS.Paging.UserPages

/-!
# The address space of a new process

With the frames it asks for, `create_process_from_elf` returns a directory, and the memory it leaves is the one that
the steps of its source give one after the other (`createProcessFromElf_eq`).
-/

namespace DBolOS.Paging

open Pmm (PmmInfo pmmAllocatePage takeFrames)

/-- The entry of the kernel's image, and the page of the kernel's directory behind it. -/
structure Window (mem : Memory) (c : Nat) : Prop where
  present : (mem c 768).present = true
  address : (mem c 768).address = 0x1100
  page : (mem 0x1100 6).present = true
  frame : (mem 0x1100 6).address = kernelDirectory

variable {mem : Memory} {s : Space} {c q x : Nat} {p : PmmInfo}

theorem Window.translate (h : Window mem c) : translate mem c Space.kernelPd = some kernelDirectory := by
  have hdir : Space.kernelPd / 1024 = 768 := rfl
  have hindex : Space.kernelPd % 1024 = 6 := rfl
  rw [translate_eq_some, hdir, hindex, h.address]
  exact ⟨h.present, h.page, h.frame⟩

namespace Space

/-! ### Loading a directory -/

private theorem getPhysicalPage_eq (h : SelfMapped s.mem s.cr3) (hq : q < 0x100000) :
    s.getPhysicalPage q = some ((translate s.mem s.cr3 q).getD 0) := by
  unfold getPhysicalPage translate PAGES_PER_TABLE
  rw [load_eq (locate_pdEntry h hq)]
  by_cases hd : (s.mem s.cr3 (q / 1024)).present = true
  · simp only [Option.bind_eq_bind, Option.bind_some, hd, if_true]
    rw [load_eq (locate_ptEntry h hq hd)]
    by_cases ht : (s.mem (s.mem s.cr3 (q / 1024)).address (q % 1024)).present = true
    · simp [ht]
    · simp [ht]
  · simp [hd]

theorem loadPd_eq (h : SelfMapped s.mem s.cr3) (hq : q < 0x100000) :
    s.loadPd q = some { s with currentPageDirectory := q, cr3 := (translate s.mem s.cr3 q).getD 0 } := by
  unfold loadPd
  rw [getPhysicalPage_eq h hq]
  rfl

/-! ### Filling a directory -/

private theorem locate_page (s : Space) (q : Nat) {i : Nat} (hi : i < 1024) :
    s.locate (q * PAGE_SIZE + 4 * i) = (translate s.mem s.cr3 q).map fun f => (f, i) := by
  have hpage : (q * PAGE_SIZE + 4 * i) / PAGE_SIZE = q := by
    unfold PAGE_SIZE
    omega
  have hindex : (q * PAGE_SIZE + 4 * i) % PAGE_SIZE / 4 = i := by
    unfold PAGE_SIZE
    omega
  unfold locate
  rw [hpage, hindex]

end Space

/-- The kernel's directory is loaded and reaches its own page, and page `q` in frame `x`. -/
structure Fillable (mem : Memory) (q x : Nat) : Prop where
  window : Window mem kernelDirectory
  page : translate mem kernelDirectory q = some x
  apart : x ≠ kernelDirectory ∧ x ≠ 0x1100 ∧ x ≠ (mem kernelDirectory (q / 1024)).address

private theorem Fillable.set (h : Fillable mem q x) (i : Nat) (e : PageEntry) : Fillable (mem.set x i e) q x := by
  obtain ⟨hkernel, htable, hpage⟩ := h.apart
  have hne : ∀ f j, f ≠ x → mem.set x i e f j = mem f j := by
    intro f j hf
    exact if_neg fun hand => hf hand.1
  have hk : ∀ j, mem.set x i e kernelDirectory j = mem kernelDirectory j := fun j => hne _ j hkernel.symm
  obtain ⟨hd, ht, hx⟩ := translate_eq_some.1 h.page
  refine ⟨⟨?_, ?_, ?_, ?_⟩, ?_, hkernel, htable, ?_⟩
  · rw [hk]
    exact h.window.present
  · rw [hk]
    exact h.window.address
  · rw [hne _ _ htable.symm]
    exact h.window.page
  · rw [hne _ _ htable.symm]
    exact h.window.frame
  · rw [translate_eq_some, hk, hne _ _ hpage.symm]
    exact ⟨hd, ht, hx⟩
  · rw [hk]
    exact hpage

/-- The memory with `n` entries of the kernel's directory from entry `i` on copied to frame `x`. -/
def copied (mem : Memory) (x i n : Nat) : Memory := fun f j =>
  if f = x ∧ i ≤ j ∧ j < i + n then mem kernelDirectory j else mem f j

private theorem copied_succ (hx : x ≠ kernelDirectory) (i n : Nat) :
    copied (mem.set x i (mem kernelDirectory i)) x (i + 1) n = copied mem x i (n + 1) := by
  funext f j
  have hkernel : ∀ j, mem.set x i (mem kernelDirectory i) kernelDirectory j = mem kernelDirectory j := by
    intro j
    exact if_neg fun hand => hx hand.1.symm
  unfold copied
  rw [hkernel]
  by_cases hf : f = x
  · by_cases hj : j = i
    · rw [if_neg (by omega), if_pos (by omega), hf, hj]
      exact if_pos ⟨rfl, rfl⟩
    · by_cases hrange : i ≤ j ∧ j < i + (n + 1)
      · rw [if_pos (by omega), if_pos ⟨hf, hrange⟩]
      · rw [if_neg (by omega), if_neg (fun hand => hrange hand.2)]
        exact if_neg fun hand => hj hand.2
  · rw [if_neg (fun hand => hf hand.1), if_neg (fun hand => hf hand.1)]
    exact if_neg fun hand => hf hand.1

/-- The memory with the directory in frame `x` filled in. -/
def filled (mem : Memory) (x : Nat) : Memory :=
  (copied mem x 768 256).set x 1023 { mem kernelDirectory 1023 with address := bits20 x }

namespace Space

private theorem copyEntries_eq {i n : Nat} (h : Fillable s.mem q x) (hcr3 : s.cr3 = kernelDirectory)
    (hn : i + n ≤ 1024) :
    copyEntries q kernelPd n i s = some { s with mem := copied s.mem x i n } := by
  induction n generalizing s i with
  | zero =>
    have hcopied : copied s.mem x i 0 = s.mem := by
      funext f j
      exact if_neg (by omega)
    rw [hcopied]
    rfl
  | succ n ih =>
    have hlt : i < 1024 := by omega
    have hsource : s.locate (kernelPd * PAGE_SIZE + 4 * i) = some (kernelDirectory, i) := by
      rw [locate_page s _ hlt, hcr3, h.window.translate]
      rfl
    have hdestination : s.locate (q * PAGE_SIZE + 4 * i) = some (x, i) := by
      rw [locate_page s _ hlt, hcr3, h.page]
      rfl
    unfold copyEntries
    rw [load_eq hsource]
    simp only [Option.bind_eq_bind, Option.bind_some, modify_eq hdestination]
    rw [ih (s := { s with mem := s.mem.set x i (s.mem kernelDirectory i) }) (h.set i _) hcr3 (by omega)]
    rw [copied_succ h.apart.1]

private theorem fillDirectory_eq (h : Fillable s.mem q x) (hself : SelfMapped s.mem kernelDirectory)
    (hcr3 : s.cr3 = kernelDirectory) (hq : q < 0x100000) :
    s.fillDirectory q = some { s with mem := filled s.mem x } := by
  have hne : ∀ f, f ≠ x → copied s.mem x 768 256 f = s.mem f := by
    intro f hf
    funext j
    exact if_neg fun hand => hf hand.1
  have hself' : SelfMapped (copied s.mem x 768 256) s.cr3 := by
    rw [hcr3]
    refine ⟨?_, ?_⟩
    · rw [hne _ h.apart.1.symm]
      exact hself.present
    · rw [hne _ h.apart.1.symm]
      exact hself.self
  have hpage : translate (copied s.mem x 768 256) s.cr3 q = some x := by
    obtain ⟨hd, ht, hx⟩ := translate_eq_some.1 h.page
    rw [hcr3, translate_eq_some, hne _ h.apart.1.symm, hne _ h.apart.2.2.symm]
    exact ⟨hd, ht, hx⟩
  have hcopy : copyEntries q kernelPd (PAGES_PER_DIR - kernelEntries) kernelEntries s =
      some { s with mem := copied s.mem x 768 256 } := copyEntries_eq h hcr3 (by decide)
  have hphys := getPhysicalPage_eq (s := { s with mem := copied s.mem x 768 256 }) hself' hq
  have hlocate : ({ s with mem := copied s.mem x 768 256 } : Space).locate (q * PAGE_SIZE + 4 * (PAGES_PER_DIR - 1)) =
      some (x, 1023) := by
    rw [locate_page _ q (by decide)]
    show Option.map _ (translate (copied s.mem x 768 256) s.cr3 q) = _
    rw [hpage]
    rfl
  have hlast : copied s.mem x 768 256 x 1023 = s.mem kernelDirectory 1023 := if_pos ⟨rfl, by omega, by omega⟩
  unfold fillDirectory
  simp only [hcopy, Option.bind_eq_bind, Option.bind_some, hphys, hpage, Option.getD_some, modify_eq hlocate, hlast]
  rfl

end Space

/-! ### The filled directory -/

theorem filled_of_ne {f : Nat} (hf : f ≠ x) : filled mem x f = mem f := by
  funext j
  unfold filled Memory.set copied
  rw [if_neg (fun hand => hf hand.1), if_neg (fun hand => hf hand.1)]

private theorem filled_self : filled mem x x 1023 = { mem kernelDirectory 1023 with address := bits20 x } :=
  if_pos ⟨rfl, rfl⟩

theorem filled_kernel {j : Nat} (hlo : 768 ≤ j) (hhi : j < 1023) : filled mem x x j = mem kernelDirectory j := by
  unfold filled Memory.set copied
  rw [if_neg (by omega), if_pos ⟨rfl, hlo, by omega⟩]

private theorem filled_user {j : Nat} (hj : j < 768) : filled mem x x j = mem x j := by
  unfold filled Memory.set copied
  rw [if_neg (by omega), if_neg (by omega)]

private theorem Directory.filled (h : Directory mem kernelDirectory) (hlo : 0x1500 ≤ x) (hhi : x < 0x100000) :
    Directory (filled mem x) x := by
  refine ⟨⟨?_, ?_⟩, ?_, Or.inr hlo⟩
  · rw [filled_self]
    exact h.present
  · rw [filled_self]
    show bits20 x = x
    unfold bits20
    omega
  · intro i hi hi'
    rw [filled_kernel (by omega) hi']
    exact h.tables i hi hi'

private theorem Window.filled (h : Window mem kernelDirectory) (hx : 0x1500 ≤ x) : Window (filled mem x) x := by
  have htable : Paging.filled mem x 0x1100 = mem 0x1100 := filled_of_ne (by omega)
  refine ⟨?_, ?_, ?_, ?_⟩
  · rw [filled_kernel (by omega) (by omega)]
    exact h.present
  · rw [filled_kernel (by omega) (by omega)]
    exact h.address
  · rw [htable]
    exact h.page
  · rw [htable]
    exact h.frame

/-- What is stored outside of the entry and the page of the window does not matter. -/
theorem Window.congr {mem' : Memory} (h : Window mem c) (hentry : mem' c 768 = mem c 768)
    (htable : mem' 0x1100 = mem 0x1100) : Window mem' c := by
  refine ⟨?_, ?_, ?_, ?_⟩
  · rw [hentry]
    exact h.present
  · rw [hentry]
    exact h.address
  · rw [htable]
    exact h.page
  · rw [htable]
    exact h.frame

theorem SelfMapped.congr {mem' : Memory} (h : SelfMapped mem c) (hentry : mem' c 1023 = mem c 1023) :
    SelfMapped mem' c := by
  refine ⟨?_, ?_⟩
  · rw [hentry]
    exact h.present
  · rw [hentry]
    exact h.self

/-! ### Creating a process -/

/-- The frames that a creation takes, in the order it takes them. -/
structure Supply (c : Space.Creation) (p : PmmInfo) where
  node : List Nat
  kernelStack : List Nat
  directory : Nat
  spare : Nat
  table : Nat
  tables : List Nat
  image : List Nat
  stack : List Nat
  rest : PmmInfo
  node_length : node.length = c.growth
  kernelStack_length : kernelStack.length = 3
  tables_length : tables.length = c.image.tableCount
  image_length : image.length = c.image.pageCount
  stack_length : stack.length = 256
  taken : takeFrames (c.growth + (3 + (2 + (c.image.tableCount + 1 + (c.image.pageCount + 256))))) p =
    some (node ++ (kernelStack ++ ([directory, spare] ++ (table :: tables ++ (image ++ stack)))), rest)

namespace Supply

variable {c : Space.Creation}

/-- The frames for heap pages that are taken while the kernel's directory is loaded. -/
def heap (d : Supply c p) : List Nat := d.node ++ d.kernelStack ++ [d.directory, d.spare]

theorem heap_length (d : Supply c p) : d.heap.length = c.growth + 5 := by
  simp [heap, d.node_length, d.kernelStack_length]

private theorem free (d : Supply c p) {f : Nat}
    (hf : f ∈ d.node ++ (d.kernelStack ++ ([d.directory, d.spare] ++ (d.table :: d.tables ++ (d.image ++ d.stack))))) :
    Pmm.occupied p f = false ∧ f < 0x100000 :=
  (Pmm.takeFrames_free d.taken).2 f hf

theorem free_directory (d : Supply c p) : Pmm.occupied p d.directory = false ∧ d.directory < 0x100000 :=
  d.free (by simp)

theorem free_table (d : Supply c p) : Pmm.occupied p d.table = false ∧ d.table < 0x100000 := d.free (by simp)

theorem directory_ne_table (d : Supply c p) : d.directory ≠ d.table := by
  have h := (Pmm.takeFrames_free d.taken).1
  simp only [List.nodup_append, List.nodup_cons, List.cons_append, List.nil_append, List.mem_cons, not_or] at h
  exact h.2.1.2.1.1.2.1

end Supply

/-- Page `q` is one that the image or the stack is loaded to. -/
def Space.Image.Loads (image : Space.Image) (q : Nat) : Prop :=
  (image.start ≤ q ∧ q < image.start + image.pageCount) ∨ (Space.stackStart ≤ q ∧ q < Space.stackStart + 256)

/-- The kernel's directory is in order, the one that is loaded reaches it, and the frames of both are not free. -/
structure Sane (s : Space) : Prop where
  kernel : Directory s.mem kernelDirectory
  window : Window s.mem kernelDirectory
  loaded : SelfMapped s.mem s.cr3
  reach : Window s.mem s.cr3
  used : Pmm.occupied s.pmm s.cr3 = true
  prev : s.currentPageDirectory < 0x100000
  low : ∀ f, f < 0x1800 → Pmm.occupied s.pmm f = true

/-- What a creation that takes the frames `d` needs: room in the heap, an image below the kernel's half, and behind the
entries for its pages no table but the one it takes. -/
structure Ready (s : Space) (c : Space.Creation) (d : Supply c s.pmm) : Prop extends Sane s where
  heap : HeapPages s.currHeapEnd (c.growth + 5 + (c.image.tableCount + 1))
  user : UserPages c.image.start c.image.pageCount
  stale : ∀ q, c.image.Loads q → PointsTo s.mem d.directory d.table (q / 1024)

/-- Frames that are free lie above those of the kernel. -/
theorem Sane.high (h : Sane s) {f : Nat} (hf : Pmm.occupied s.pmm f = false) : 0x1800 ≤ f := by
  by_contra hlt
  rw [h.low f (by omega)] at hf
  cases hf

namespace Supply

variable {c : Space.Creation}

/-- The memory after the kernel's directory was used for the heap. -/
def heapMem (d : Supply c p) (mem : Memory) (v : Nat) : Memory := growMem mem kernelDirectory v d.heap

/-- The memory after the new directory was filled in. -/
def dirMem (d : Supply c p) (mem : Memory) (v : Nat) : Memory := filled (d.heapMem mem v) d.directory

/-- The memory after the pages of the tables were allocated. -/
def tableMem (d : Supply c p) (mem : Memory) (v : Nat) : Memory :=
  growMem (d.dirMem mem v) d.directory (v + (c.growth + 5)) (d.table :: d.tables)

/-- The memory after the image was given its pages. -/
def imageMem (d : Supply c p) (mem : Memory) (v : Nat) : Memory :=
  userMem (d.tableMem mem v) d.directory d.table c.isKernelMode c.image.start d.image

/-- The memory at the end. -/
def loadMem (d : Supply c p) (mem : Memory) (v : Nat) : Memory :=
  userMem (d.imageMem mem v) d.directory d.table c.isKernelMode Space.stackStart d.stack

end Supply

namespace Ready

variable {c : Space.Creation} {d : Supply c s.pmm}

theorem high_directory (h : Ready s c d) : 0x1800 ≤ d.directory := h.toSane.high d.free_directory.1

theorem high_table (h : Ready s c d) : 0x1800 ≤ d.table := h.toSane.high d.free_table.1

theorem heapPages (h : Ready s c d) : HeapPages s.currHeapEnd d.heap.length := by
  intro q hlo hhi
  rw [d.heap_length] at hhi
  exact h.heap q hlo (by omega)

theorem tablePages (h : Ready s c d) : HeapPages (s.currHeapEnd + (c.growth + 5)) (d.table :: d.tables).length := by
  intro q hlo hhi
  rw [List.length_cons, d.tables_length] at hhi
  exact h.heap q (by omega) (by omega)

/-! ### The memory along the way -/

theorem heapMem_directory (h : Ready s c d) : Directory (d.heapMem s.mem s.currHeapEnd) kernelDirectory :=
  h.kernel.growMem h.heapPages

theorem heapMem_of_ne (h : Ready s c d) {f : Nat} (hf : f ≠ kernelDirectory)
    (htable : f < 0x1100 + 774 ∨ 0x1500 ≤ f) : d.heapMem s.mem s.currHeapEnd f = s.mem f :=
  growMem_of_ne h.kernel h.heapPages hf htable

private theorem heapMem_window (h : Ready s c d) : Window (d.heapMem s.mem s.currHeapEnd) kernelDirectory := by
  apply h.window.congr
  · exact growMem_of_present h.kernel h.heapPages h.window.present
  · exact h.heapMem_of_ne (by decide) (by omega)

/-- The page of the new directory is mapped to its frame. -/
private theorem heapMem_page (h : Ready s c d) :
    translate (d.heapMem s.mem s.currHeapEnd) kernelDirectory (s.currHeapEnd + (c.growth + 3)) = some d.directory := by
  have hk : d.heap[c.growth + 3]? = some d.directory := by
    unfold Supply.heap
    rw [List.getElem?_append_right (by simp [d.node_length, d.kernelStack_length])]
    simp [d.node_length, d.kernelStack_length]
  have := translate_growMem h.kernel h.heapPages hk
  rw [show bits20 d.directory = d.directory from Nat.mod_eq_of_lt d.free_directory.2] at this
  exact this

theorem dirMem_directory (h : Ready s c d) : Directory (d.dirMem s.mem s.currHeapEnd) d.directory := by
  have := h.high_directory
  exact h.heapMem_directory.filled (by omega) d.free_directory.2

theorem tableMem_directory (h : Ready s c d) : Directory (d.tableMem s.mem s.currHeapEnd) d.directory :=
  h.dirMem_directory.growMem h.tablePages

/-- What the new directory holds for the user's half is what its frame held before. -/
theorem tableMem_user (h : Ready s c d) {j : Nat} (hj : j < 768) :
    d.tableMem s.mem s.currHeapEnd d.directory j = s.mem d.directory j := by
  have hgrow : d.tableMem s.mem s.currHeapEnd d.directory j = d.dirMem s.mem s.currHeapEnd d.directory j := by
    apply growMem_of_ne_entry h.dirMem_directory h.tablePages
    intro q hlo hhi heq
    have := (h.tablePages q hlo hhi).1
    omega
  have := h.high_directory
  rw [hgrow]
  unfold Supply.dirMem
  rw [filled_user hj, h.heapMem_of_ne _ (by omega)]
  unfold kernelDirectory
  omega

theorem loadable_image (h : Ready s c d) :
    Loadable (d.tableMem s.mem s.currHeapEnd) d.directory d.table c.image.start d.image.length := by
  rw [d.image_length]
  refine ⟨h.tableMem_directory.toSelfMapped, d.free_table.2, d.directory_ne_table, h.user, ?_⟩
  intro q hlo hhi
  have := h.user
  unfold UserPages at this
  unfold PointsTo
  rw [h.tableMem_user (by omega)]
  exact h.stale q (Or.inl ⟨hlo, hhi⟩)

theorem loadable_stack (h : Ready s c d) :
    Loadable (d.imageMem s.mem s.currHeapEnd) d.directory d.table Space.stackStart d.stack.length := by
  rw [d.stack_length]
  refine ⟨userMem_self h.loadable_image, d.free_table.2, d.directory_ne_table, ?_, ?_⟩
  · unfold UserPages
    decide
  · intro q hlo hhi
    apply userMem_pointsTo h.loadable_image
    have hstack : Space.stackStart = 0xBFEFF := rfl
    unfold PointsTo
    rw [h.tableMem_user (by omega)]
    exact h.stale q (Or.inr ⟨hlo, hhi⟩)

/-! ### The memory at the end -/

theorem loadMem_of_ne (h : Ready s c d) {f : Nat} (hdir : f ≠ d.directory) (htable : f ≠ d.table) :
    d.loadMem s.mem s.currHeapEnd f = d.tableMem s.mem s.currHeapEnd f :=
  (userMem_of_ne h.loadable_stack hdir htable).trans (userMem_of_ne h.loadable_image hdir htable)

theorem loadMem_entry (h : Ready s c d) {j : Nat} (hj : 768 ≤ j) :
    d.loadMem s.mem s.currHeapEnd d.directory j = d.tableMem s.mem s.currHeapEnd d.directory j :=
  (userMem_kernel h.loadable_stack hj).trans (userMem_kernel h.loadable_image hj)

/-- Apart from the new directory, its table and the kernel's tables, the memory is that after the kernel's directory was
used. -/
theorem loadMem_low (h : Ready s c d) {f : Nat} (hdir : f ≠ d.directory) (htable : f ≠ d.table)
    (hkernel : f < 0x1100 + 774 ∨ 0x1500 ≤ f) :
    d.loadMem s.mem s.currHeapEnd f = d.heapMem s.mem s.currHeapEnd f := by
  rw [h.loadMem_of_ne hdir htable]
  exact (growMem_of_ne h.dirMem_directory h.tablePages hdir hkernel).trans (filled_of_ne hdir)

theorem loadMem_kernel (h : Ready s c d) :
    d.loadMem s.mem s.currHeapEnd kernelDirectory = d.heapMem s.mem s.currHeapEnd kernelDirectory := by
  have hdir := h.high_directory
  have htable := h.high_table
  unfold kernelDirectory
  exact h.loadMem_low (by omega) (by omega) (by omega)

theorem loadMem_window_table (h : Ready s c d) : d.loadMem s.mem s.currHeapEnd 0x1100 = s.mem 0x1100 := by
  have hdir := h.high_directory
  have htable := h.high_table
  rw [h.loadMem_low (by omega) (by omega) (by omega)]
  exact h.heapMem_of_ne (by decide) (by omega)

/-- Both directories reach the page of the kernel's directory. -/
theorem loadMem_window (h : Ready s c d) : Window (d.loadMem s.mem s.currHeapEnd) kernelDirectory := by
  apply h.heapMem_window.congr
  · rw [h.loadMem_kernel]
  · rw [h.loadMem_window_table, h.heapMem_of_ne (by decide) (by omega)]

private theorem loadMem_new_window (h : Ready s c d) : Window (d.loadMem s.mem s.currHeapEnd) d.directory := by
  have hdir := h.high_directory
  have hwindow : Window (d.dirMem s.mem s.currHeapEnd) d.directory := h.heapMem_window.filled (by omega)
  apply hwindow.congr
  · rw [h.loadMem_entry (Nat.le_refl 768)]
    exact growMem_of_present h.dirMem_directory h.tablePages hwindow.present
  · rw [h.loadMem_window_table]
    unfold Supply.dirMem
    rw [filled_of_ne (by omega), h.heapMem_of_ne (by decide) (by omega)]

/-- The page of the new directory is still mapped to its frame. -/
theorem loadMem_page (h : Ready s c d) :
    translate (d.loadMem s.mem s.currHeapEnd) kernelDirectory (s.currHeapEnd + (c.growth + 3)) = some d.directory := by
  obtain ⟨q, hq⟩ : ∃ q, q = s.currHeapEnd + (c.growth + 3) := ⟨_, rfl⟩
  have hpage : HeapPage q := h.heapPages q (by omega) (by rw [d.heap_length]; omega)
  have hheap := translate_eq_some.1 h.heapMem_page
  rw [← hq] at hheap ⊢
  have haddress := h.heapMem_directory.tables _ hpage.1 hpage.2 hheap.1
  have hdirectory := h.high_directory
  have htable := h.high_table
  -- the new directory has the same table, and grows above the page
  have hentry : d.dirMem s.mem s.currHeapEnd d.directory (q / 1024) =
      d.heapMem s.mem s.currHeapEnd kernelDirectory (q / 1024) :=
    filled_kernel (by have := hpage.1; omega) hpage.2
  have hdir : translate (d.dirMem s.mem s.currHeapEnd) d.directory q = some d.directory := by
    rw [translate_eq_some, hentry]
    unfold Supply.dirMem
    rw [filled_of_ne]
    · exact hheap
    · rw [haddress]
      have := hpage.2
      unfold kernelTable
      omega
  have hgrow : translate (d.tableMem s.mem s.currHeapEnd) d.directory q = some d.directory :=
    translate_growMem_heap h.dirMem_directory h.tablePages hpage (by left; omega) hdir
  have hsame : d.tableMem s.mem s.currHeapEnd d.directory (q / 1024) =
      d.heapMem s.mem s.currHeapEnd kernelDirectory (q / 1024) := by
    refine Eq.trans ?_ hentry
    apply growMem_of_present h.dirMem_directory h.tablePages
    rw [hentry]
    exact hheap.1
  have hlast := (translate_eq_some.1 hgrow).2
  rw [translate_eq_some, h.loadMem_kernel]
  refine ⟨hheap.1, ?_⟩
  rw [hsame] at hlast
  rw [h.loadMem_of_ne]
  · exact hlast
  · rw [haddress]
    have := hpage.2
    unfold kernelTable
    omega
  · rw [haddress]
    have := hpage.2
    unfold kernelTable
    omega

/-- Loading the image, with the new directory loaded. -/
theorem elfLoadProcess_eq (h : Ready s c d) {p₃ : PmmInfo} (pd : Nat) (lastPage : Bool)
    (htaken : takeFrames (c.image.tableCount + 1 + (c.image.pageCount + 256)) p₃ =
      some (d.table :: d.tables ++ (d.image ++ d.stack), d.rest)) :
    Space.elfLoadProcess ⟨d.dirMem s.mem s.currHeapEnd, p₃, d.directory, pd, s.currHeapEnd + (c.growth + 5)⟩ c.image
        c.isKernelMode lastPage =
      some (decide (c.image.programBreak ≠ 0), ⟨d.loadMem s.mem s.currHeapEnd, d.rest, d.directory, pd,
        s.currHeapEnd + (c.growth + 5) + (c.image.tableCount + 1)⟩) := by
  obtain ⟨p₄, htables, hrest⟩ := Pmm.takeFrames_append htaken (by simp [d.tables_length])
  obtain ⟨p₅, himage, hstack⟩ := Pmm.takeFrames_append hrest d.image_length
  have hpages := h.tablePages
  rw [List.length_cons, d.tables_length] at hpages
  have hcount : c.image.tableCount ≤ 0x3E7FF := by
    have := h.user
    unfold UserPages Space.Image.pageCount PAGE_SIZE at this
    unfold Space.Image.tableCount PAGE_SIZE PAGES_PER_DIR
    omega
  obtain ⟨v', hv'⟩ : ∃ v', v' = s.currHeapEnd + (c.growth + 5) := ⟨_, rfl⟩
  rw [← hv'] at hpages ⊢
  have hkmalloc : Space.kmallocPages ⟨d.dirMem s.mem s.currHeapEnd, p₃, d.directory, pd, v'⟩ c.image.tableCount =
      some (some v', ⟨d.tableMem s.mem s.currHeapEnd, p₄, d.directory, pd, v' + (c.image.tableCount + 1)⟩) := by
    unfold Supply.tableMem
    rw [← hv']
    exact Space.kmallocPages_eq h.dirMem_directory (Nat.succ_pos _) hcount hpages htables
  -- the first of the tables is the one that is passed on
  have htable : translate (d.tableMem s.mem s.currHeapEnd) d.directory v' = some d.table := by
    have := translate_growMem (k := 0) h.dirMem_directory h.tablePages rfl
    rw [show bits20 d.table = d.table from Nat.mod_eq_of_lt d.free_table.2] at this
    rw [hv']
    exact this
  have hlt : v' < 0x100000 := by
    have := hpages.head.2
    omega
  have hphys : Space.getPhysicalPage ⟨d.tableMem s.mem s.currHeapEnd, p₄, d.directory, pd,
      v' + (c.image.tableCount + 1)⟩ v' = some d.table := by
    rw [Space.getPhysicalPage_eq h.tableMem_directory.toSelfMapped hlt]
    show some ((translate (d.tableMem s.mem s.currHeapEnd) d.directory v').getD 0) = _
    rw [htable]
    rfl
  have himage' : Space.allocateMultiplePages ⟨d.tableMem s.mem s.currHeapEnd, p₄, d.directory, pd,
      v' + (c.image.tableCount + 1)⟩ c.image.start c.image.pageCount c.isKernelMode (d.table * PAGE_SIZE) =
      some (true, ⟨d.imageMem s.mem s.currHeapEnd, p₅, d.directory, pd, v' + (c.image.tableCount + 1)⟩) := by
    have hloadable := h.loadable_image
    rw [d.image_length] at hloadable
    exact Space.allocateMultiplePages_eq c.isKernelMode hloadable himage
  have hstack' : Space.allocateMultiplePages ⟨d.imageMem s.mem s.currHeapEnd, p₅, d.directory, pd,
      v' + (c.image.tableCount + 1)⟩ Space.stackStart DEFAULT_STACK_PAGE_AMOUNT c.isKernelMode (d.table * PAGE_SIZE) =
      some (true, ⟨d.loadMem s.mem s.currHeapEnd, d.rest, d.directory, pd, v' + (c.image.tableCount + 1)⟩) := by
    have hloadable := h.loadable_stack
    rw [d.stack_length] at hloadable
    exact Space.allocateMultiplePages_eq c.isKernelMode hloadable hstack
  unfold Space.elfLoadProcess
  simp only [hkmalloc, Option.bind_eq_bind, Option.bind_some, Option.getD_some, hphys, himage', hstack', Bool.not_true,
    Bool.false_eq_true, if_false]

/-- The new directory can be filled in, and then loaded. -/
private theorem fillable (h : Ready s c d) :
    Fillable (d.heapMem s.mem s.currHeapEnd) (s.currHeapEnd + (c.growth + 3)) d.directory := by
  have hhigh := h.high_directory
  have hpage := h.heapPages (s.currHeapEnd + (c.growth + 3)) (by omega) (by rw [d.heap_length]; omega)
  refine ⟨h.heapMem_window, h.heapMem_page, ?_, ?_, ?_⟩
  · unfold kernelDirectory
    omega
  · omega
  · rw [h.heapMem_directory.tables _ hpage.1 hpage.2 (translate_eq_some.1 h.heapMem_page).1]
    unfold kernelTable
    have := hpage.2
    omega

private theorem dirMem_page (h : Ready s c d) :
    translate (d.dirMem s.mem s.currHeapEnd) kernelDirectory (s.currHeapEnd + (c.growth + 3)) = some d.directory := by
  obtain ⟨hkernel, -, htable⟩ := h.fillable.apart
  have hpage := translate_eq_some.1 h.heapMem_page
  rw [translate_eq_some]
  unfold Supply.dirMem
  rw [filled_of_ne hkernel.symm, filled_of_ne htable.symm]
  exact hpage

private theorem dirMem_kernel (h : Ready s c d) : SelfMapped (d.dirMem s.mem s.currHeapEnd) kernelDirectory := by
  apply h.heapMem_directory.toSelfMapped.congr
  unfold Supply.dirMem
  rw [filled_of_ne h.fillable.apart.1.symm]

/-- The space before the directory that was loaded is loaded again. -/
def loadedSpace (s : Space) (d : Supply c s.pmm) : Space :=
  { mem := d.loadMem s.mem s.currHeapEnd
    pmm := d.rest
    cr3 := kernelDirectory
    currentPageDirectory := Space.kernelPd
    currHeapEnd := s.currHeapEnd + (c.growth + 5) + (c.image.tableCount + 1) }

/-- The creation up to what depends on the program break. -/
theorem createProcessFromElf_loaded (h : Ready s c d) : s.createProcessFromElf c =
    (if c.image.programBreak = 0 then do
      let s ← (loadedSpace s d).kfree (c.lastPage 1)
      let s ← s.kfree (c.lastPage 2)
      some (none, s)
    else do
      let s' ← (loadedSpace s d).loadPd s.currentPageDirectory
      some (some (s.currHeapEnd + (c.growth + 3)), s')) := by
  obtain ⟨p₁, hnode, hrest⟩ := Pmm.takeFrames_append d.taken d.node_length
  obtain ⟨p₂, hstack, hrest⟩ := Pmm.takeFrames_append hrest d.kernelStack_length
  obtain ⟨p₃, hdirectory, hrest⟩ := Pmm.takeFrames_append hrest rfl
  obtain ⟨v, hv⟩ : ∃ v, v = s.currHeapEnd := ⟨_, rfl⟩
  obtain ⟨m, hm⟩ : ∃ m, m = s.mem := ⟨_, rfl⟩
  have hheap := h.heap
  have hkernel := h.kernel
  rw [← hv] at hheap
  rw [← hm] at hkernel
  -- the kernel's directory
  have hload : s.loadPd Space.kernelPd = some ⟨m, s.pmm, kernelDirectory, Space.kernelPd, v⟩ := by
    rw [Space.loadPd_eq h.loaded (by decide), h.reach.translate, hm, hv]
    rfl
  have hpages : ∀ i n, i + n ≤ c.growth + 5 → HeapPages (v + i) n := by
    intro i n hle q hlo hhi
    exact hheap q (by omega) (by omega)
  -- the heap pages for the node, the kernel stack and the directory
  let m₁ := growMem m kernelDirectory v d.node
  let m₂ := growMem m₁ kernelDirectory (v + c.growth) d.kernelStack
  have hlast : growMem m₂ kernelDirectory (v + (c.growth + 3)) [d.directory, d.spare] = d.heapMem m v := by
    unfold Supply.heapMem Supply.heap
    rw [growMem_append, growMem_append, List.length_append, d.node_length, d.kernelStack_length]
  have hdir₁ : Directory m₁ kernelDirectory := hkernel.growMem (by rw [d.node_length]; exact hpages 0 _ (by omega))
  have hdir₂ : Directory m₂ kernelDirectory :=
    hdir₁.growMem (by rw [d.kernelStack_length]; exact hpages c.growth 3 (by omega))
  have hnode' : Space.kmalloc c.growth ⟨m, s.pmm, kernelDirectory, Space.kernelPd, v⟩ =
      some (true, ⟨m₁, p₁, kernelDirectory, Space.kernelPd, v + c.growth⟩) :=
    Space.kmalloc_eq hkernel (hpages 0 _ (by omega)) hnode
  have hstack' : Space.kmallocPages ⟨m₁, p₁, kernelDirectory, Space.kernelPd, v + c.growth⟩ 2 =
      some (some (v + c.growth), ⟨m₂, p₂, kernelDirectory, Space.kernelPd, v + (c.growth + 3)⟩) :=
    Space.kmallocPages_eq hdir₁ (by omega) (by omega) (hpages c.growth 3 (by omega)) hstack
  obtain ⟨pd, hpd⟩ : ∃ pd, pd = v + (c.growth + 3) := ⟨_, rfl⟩
  have hdirectory' : Space.kmallocPages ⟨m₂, p₂, kernelDirectory, Space.kernelPd, v + (c.growth + 3)⟩ 1 =
      some (some pd, ⟨d.heapMem m v, p₃, kernelDirectory, Space.kernelPd, v + (c.growth + 5)⟩) := by
    rw [← hlast, hpd]
    exact Space.kmallocPages_eq hdir₂ (by omega) (by omega) (hpages (c.growth + 3) 2 (by omega)) hdirectory
  -- the new directory
  have hlt : pd < 0x100000 := by
    have := (hheap pd (by omega) (by omega)).2
    omega
  have hfill : Space.fillDirectory ⟨d.heapMem m v, p₃, kernelDirectory, Space.kernelPd, v + (c.growth + 5)⟩ pd =
      some ⟨d.dirMem m v, p₃, kernelDirectory, Space.kernelPd, v + (c.growth + 5)⟩ := by
    rw [hpd, hm, hv]
    rw [hpd, hv] at hlt
    exact Space.fillDirectory_eq h.fillable h.heapMem_directory.toSelfMapped rfl hlt
  have hnew : Space.loadPd ⟨d.dirMem m v, p₃, kernelDirectory, Space.kernelPd, v + (c.growth + 5)⟩ pd =
      some ⟨d.dirMem m v, p₃, d.directory, pd, v + (c.growth + 5)⟩ := by
    have hself : SelfMapped (d.dirMem m v) kernelDirectory := by
      rw [hm, hv]
      exact h.dirMem_kernel
    have hpage : translate (d.dirMem m v) kernelDirectory pd = some d.directory := by
      rw [hpd, hm, hv]
      exact h.dirMem_page
    rw [Space.loadPd_eq hself hlt]
    show some (Space.mk _ _ ((translate (d.dirMem m v) kernelDirectory pd).getD 0) _ _) = _
    rw [hpage]
    rfl
  have hloaded : Space.elfLoadProcess ⟨d.dirMem m v, p₃, d.directory, pd, v + (c.growth + 5)⟩ c.image c.isKernelMode
      (c.lastPage 0) = some (decide (c.image.programBreak ≠ 0), ⟨d.loadMem m v, d.rest, d.directory, pd,
        v + (c.growth + 5) + (c.image.tableCount + 1)⟩) := by
    rw [hm, hv]
    exact h.elfLoadProcess_eq pd (c.lastPage 0) hrest
  have hback : Space.loadPd ⟨d.loadMem m v, d.rest, d.directory, pd, v + (c.growth + 5) + (c.image.tableCount + 1)⟩
      Space.kernelPd = some (loadedSpace s d) := by
    have hself : SelfMapped (d.loadMem m v) d.directory := by
      rw [hm, hv]
      exact userMem_self h.loadable_stack
    have hreach : translate (d.loadMem m v) d.directory Space.kernelPd = some kernelDirectory := by
      rw [hm, hv]
      exact h.loadMem_new_window.translate
    rw [Space.loadPd_eq hself (by decide)]
    show some (Space.mk _ _ ((translate (d.loadMem m v) d.directory Space.kernelPd).getD 0) _ _) = _
    rw [hreach, hm, hv]
    rfl
  unfold Space.createProcessFromElf
  simp only [hload, hnode', PROC_KERNEL_STACK_SIZE, hstack', hdirectory', hfill, hnew, hloaded, hback,
    Option.bind_eq_bind, Option.bind_some, Bool.not_true, Bool.false_eq_true, if_false]
  by_cases hbreak : c.image.programBreak = 0
  · simp [hbreak]
  · simp [hbreak, hpd, hv]

private theorem loadedSpace_self (h : Ready s c d) : SelfMapped (loadedSpace s d).mem kernelDirectory :=
  h.heapMem_directory.toSelfMapped.congr (congrFun h.loadMem_kernel 1023)

/-- The creation returns the page of the new directory. -/
theorem createProcessFromElf_eq (h : Ready s c d) (hbreak : c.image.programBreak ≠ 0) : s.createProcessFromElf c =
    some (some (s.currHeapEnd + (c.growth + 3)),
      { loadedSpace s d with
        cr3 := (translate (d.loadMem s.mem s.currHeapEnd) kernelDirectory s.currentPageDirectory).getD 0
        currentPageDirectory := s.currentPageDirectory }) := by
  rw [h.createProcessFromElf_loaded, if_neg hbreak, Space.loadPd_eq (s := loadedSpace s d) h.loadedSpace_self h.prev]
  rfl

/-- Without a section to load there is no process, and the directory of the kernel stays loaded. -/
theorem createProcessFromElf_none (h : Ready s c d) (hbreak : c.image.programBreak = 0) (hfirst : c.lastPage 1 = false)
    (hsecond : c.lastPage 2 = false) : s.createProcessFromElf c = some (none, loadedSpace s d) := by
  rw [h.createProcessFromElf_loaded, if_pos hbreak, hfirst, hsecond]
  rfl

end Ready

end DBolOS.Paging
