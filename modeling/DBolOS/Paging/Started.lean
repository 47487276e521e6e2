import DBolOS.Paging.Boot
import DBolOS.Paging.Owning

/-!
# A process that was just loaded

The space that `create_process_from_elf` leaves, with the new directory loaded, is a running one (`Ready.running`).
Where the frames it took held nothing and no page of the image shares the table's entry with one of the stack, the
process owns the pages of its image and of its stack (`Ready.owning`).
-/

namespace DBolOS.Paging

open Pmm (PmmInfo takeFrames occupied)

variable {mem : Memory} {s : Space} {c : Space.Creation} {d : Supply c s.pmm} {p : PmmInfo} {v n j g : Nat}
  {fs : List Nat}

/-- The frame of the new directory is empty, and the kernel's image has its own tables. -/
structure Fresh (s : Space) (c : Space.Creation) (d : Supply c s.pmm) : Prop extends Ready s c d where
  directory : ∀ j, j < 768 → (s.mem d.directory j).present = false
  image : ∀ j, 768 ≤ j → j < 774 → (s.mem kernelDirectory j).present = true →
    0x1100 ≤ (s.mem kernelDirectory j).address ∧ (s.mem kernelDirectory j).address < 0x1106

/-- The frame of the new table is empty too, what the kernel maps is in use, and it maps no page behind its heap. -/
structure Clean (s : Space) (c : Space.Creation) (d : Supply c s.pmm) : Prop extends Fresh s c d where
  table : ∀ j, (s.mem d.table j).present = false
  kernelUsed : ∀ g j, KernelTable g → j < 1024 → (s.mem g j).present = true →
    occupied s.pmm (s.mem g j).address = true
  unmapped : ∀ q, s.currHeapEnd ≤ q → HeapPage q → (s.mem (kernelTable (q / 1024)) (q % 1024)).present = false

/-- Loading pages is mapping a range with the table in frame `t`. -/
private theorem userMem_eq (mem : Memory) (c t : Nat) (onlyKernelMode : Bool) (v : Nat) (fs : List Nat) :
    userMem mem c t onlyKernelMode v fs = rangeMem mem c (t * PAGE_SIZE) onlyKernelMode v fs := by
  induction fs generalizing mem v with
  | nil => rfl
  | cons f fs ih => exact ih _ _

private theorem Directory.plain {x : Nat} (h : Directory mem x) (hv : HeapPages v n) (hn : 0 < n) :
    Plain mem x 0 v n := by
  have hlast := hv (v + n - 1) (by omega) (by omega)
  refine ⟨h.toSelfMapped, by unfold HeapPage at hlast; omega, fun q hlo hhi => ?_⟩
  have hpage := hv q hlo hhi
  have hapart := h.apart
  unfold tableOf
  rw [h.tableFor_address hpage]
  unfold HeapPage at hpage
  unfold kernelTable
  omega

/-! ### Before the image is mapped -/

/-- The frames in the order they are taken, with the states of the frame manager between them. -/
private theorem Supply.frames (d : Supply c p) : ∃ p₃ p₄ p₅, takeFrames d.heap.length p = some (d.heap, p₃) ∧
    takeFrames (d.table :: d.tables).length p₃ = some (d.table :: d.tables, p₄) ∧
    takeFrames d.image.length p₄ = some (d.image, p₅) ∧ takeFrames d.stack.length p₅ = some (d.stack, d.rest) := by
  have htaken := d.taken
  rw [show c.growth + (3 + (2 + (c.image.tableCount + 1 + (c.image.pageCount + 256)))) =
    c.growth + 5 + (c.image.tableCount + 1 + (c.image.pageCount + 256)) by omega,
    show d.node ++ (d.kernelStack ++ ([d.directory, d.spare] ++ (d.table :: d.tables ++ (d.image ++ d.stack)))) =
      d.heap ++ (d.table :: d.tables ++ (d.image ++ d.stack)) by simp [Supply.heap]] at htaken
  obtain ⟨p₃, hheap, htaken⟩ := Pmm.takeFrames_append htaken d.heap_length
  obtain ⟨p₄, htables, htaken⟩ := Pmm.takeFrames_append htaken (by simp [d.tables_length])
  obtain ⟨p₅, himage, hstack⟩ := Pmm.takeFrames_append htaken d.image_length
  refine ⟨p₃, p₄, p₅, ?_, ?_, ?_, ?_⟩
  · rw [d.heap_length]
    exact hheap
  · rw [List.length_cons, d.tables_length]
    exact htables
  · rw [d.image_length]
    exact himage
  · rw [d.stack_length]
    exact hstack

namespace Ready

/-- The space before the image is mapped, while the new directory is loaded. -/
def tableSpace (s : Space) (d : Supply c s.pmm) (p : PmmInfo) : Space where
  mem := d.tableMem s.mem s.currHeapEnd
  pmm := p
  cr3 := d.directory
  currentPageDirectory := s.currHeapEnd + (c.growth + 3)
  currHeapEnd := s.currHeapEnd + (c.growth + 5) + (c.image.tableCount + 1)

/-- The kernel's image has the entries in the new directory that it has in the kernel's. -/
private theorem tableMem_image (h : Ready s c d) (hlo : 768 ≤ j) (hhi : j < 774) :
    d.tableMem s.mem s.currHeapEnd d.directory j = s.mem kernelDirectory j := by
  have hgrow : d.tableMem s.mem s.currHeapEnd d.directory j = d.dirMem s.mem s.currHeapEnd d.directory j := by
    apply growMem_of_ne_entry h.dirMem_directory h.tablePages
    intro q hqlo hqhi heq
    have := (h.tablePages q hqlo hqhi).1
    omega
  rw [hgrow]
  unfold Supply.dirMem
  rw [filled_kernel hlo (by omega)]
  apply growMem_of_ne_entry h.kernel h.heapPages
  intro q hqlo hqhi heq
  have := (h.heapPages q hqlo hqhi).1
  omega

end Ready

namespace Fresh

/-- What is in use stays so up to there. -/
private theorem occupied_tables {p₃ p₄ : PmmInfo} (hheap : takeFrames d.heap.length s.pmm = some (d.heap, p₃))
    (htables : takeFrames (d.table :: d.tables).length p₃ = some (d.table :: d.tables, p₄)) {f : Nat}
    (hf : occupied s.pmm f = true ∨ f ∈ d.heap ∨ f = d.table) : occupied p₄ f = true := by
  rw [Pmm.occupied_takeFrames htables, Pmm.occupied_takeFrames hheap]
  obtain hf | hf | rfl := hf
  · simp [hf]
  · simp [hf]
  · simp

private theorem tableSpace_running {p₃ p₄ : PmmInfo} (h : Fresh s c d)
    (hheap : takeFrames d.heap.length s.pmm = some (d.heap, p₃))
    (htables : takeFrames (d.table :: d.tables).length p₃ = some (d.table :: d.tables, p₄)) :
    Running (Ready.tableSpace s d p₄) := by
  have hdirectory := h.tableMem_directory
  refine ⟨hdirectory, fun f hf => occupied_tables hheap htables (.inl (h.low f hf)),
    occupied_tables hheap htables (.inr (.inl ?_)), ?_, ?_⟩
  · show d.directory ∈ d.heap
    simp [Supply.heap]
  · intro j hj hpresent
    change (d.tableMem s.mem s.currHeapEnd d.directory j).present = true at hpresent
    rw [h.tableMem_user hj, h.directory j hj] at hpresent
    cases hpresent
  · intro j hlo hhi hpresent
    change (d.tableMem s.mem s.currHeapEnd d.directory j).present = true at hpresent
    show 0x1100 ≤ (d.tableMem s.mem s.currHeapEnd d.directory j).address ∧
      (d.tableMem s.mem s.currHeapEnd d.directory j).address < 0x1500
    by_cases hj : j < 774
    · rw [h.tableMem_image hlo hj] at hpresent ⊢
      have := h.image j hlo hj hpresent
      omega
    · rw [hdirectory.tables j (by omega) hhi hpresent]
      unfold kernelTable
      omega

/-- The new table can be one of the user's. -/
private theorem table_user {p₃ p₄ : PmmInfo} (h : Fresh s c d)
    (hheap : takeFrames d.heap.length s.pmm = some (d.heap, p₃))
    (htables : takeFrames (d.table :: d.tables).length p₃ = some (d.table :: d.tables, p₄)) :
    UserTable (Ready.tableSpace s d p₄) d.table :=
  ⟨occupied_tables hheap htables (.inr (.inr rfl)), h.high_table, d.directory_ne_table.symm⟩

/-! ### The process -/

private theorem fitting {p₃ p₄ : PmmInfo} {mem : Memory} {p : PmmInfo} {v n : Nat} (h : Fresh s c d)
    (hheap : takeFrames d.heap.length s.pmm = some (d.heap, p₃))
    (htables : takeFrames (d.table :: d.tables).length p₃ = some (d.table :: d.tables, p₄)) (hpages : v + n ≤ 0xC0000)
    (hocc : ∀ f, occupied p₄ f = true → occupied p f = true) :
    Fitting { Ready.tableSpace s d p₄ with mem := mem, pmm := p } (d.table * PAGE_SIZE) v n := by
  refine ⟨by omega, fun _ _ _ _ _ => ?_⟩
  obtain ⟨hused, hrest⟩ := h.table_user hheap htables
  rw [Nat.mul_div_cancel d.table (by decide : 0 < PAGE_SIZE), show bits20 d.table = d.table from
    Nat.mod_eq_of_lt d.free_table.2]
  exact ⟨hocc _ hused, hrest⟩

/-- The process with its directory loaded. -/
def process (s : Space) (d : Supply c s.pmm) : Space :=
  { Ready.loadedSpace s d with cr3 := d.directory, currentPageDirectory := s.currHeapEnd + (c.growth + 3) }

/-- The space of the process, its image and its stack mapped one after the other. -/
private theorem process_eq (s : Space) (d : Supply c s.pmm) (p₄ : PmmInfo) : process s d =
    { Ready.tableSpace s d p₄ with
      mem := rangeMem (rangeMem (d.tableMem s.mem s.currHeapEnd) d.directory (d.table * PAGE_SIZE) c.isKernelMode
        c.image.start d.image) d.directory (d.table * PAGE_SIZE) c.isKernelMode Space.stackStart d.stack
      pmm := d.rest } := by
  rw [← userMem_eq, ← userMem_eq]
  rfl

theorem running (h : Fresh s c d) : Running (process s d) := by
  obtain ⟨p₃, p₄, p₅, hheap, htables, himage, hstack⟩ := d.frames
  have huser := h.user
  unfold UserPages at huser
  rw [process_eq s d p₄]
  have hfit : Fitting (Ready.tableSpace s d p₄) (d.table * PAGE_SIZE) c.image.start d.image.length :=
    h.fitting hheap htables (by rw [d.image_length]; exact huser) fun _ => id
  have hrun₁ := (h.tableSpace_running hheap htables).range hfit himage c.isKernelMode
    (Ready.tableSpace s d p₄).currHeapEnd
  refine hrun₁.range (h.fitting hheap htables ?_ fun f hf => ?_) hstack c.isKernelMode
    (Ready.tableSpace s d p₄).currHeapEnd
  · rw [d.stack_length]
    decide
  · rw [Pmm.occupied_takeFrames himage, hf, Bool.or_true]

/-- A creation that succeeds leaves the space of the process, up to the directory that is loaded. -/
theorem process_of_create {s₁ : Space} {pd : Nat} (h : Fresh s c d)
    (hcreate : s.createProcessFromElf c = some (some pd, s₁)) :
    { s₁ with cr3 := d.directory, currentPageDirectory := pd } = process s d := by
  by_cases hbreak : c.image.programBreak = 0
  · rw [h.createProcessFromElf_loaded, if_pos hbreak] at hcreate
    obtain ⟨s₂, -, hcreate⟩ := Option.bind_eq_some_iff.1 hcreate
    obtain ⟨s₃, -, hcreate⟩ := Option.bind_eq_some_iff.1 hcreate
    cases hcreate
  · rw [h.createProcessFromElf_eq hbreak] at hcreate
    cases hcreate
    rfl

private theorem plain_image (h : Fresh s c d) : Plain (d.tableMem s.mem s.currHeapEnd) d.directory (d.table * PAGE_SIZE)
    c.image.start d.image.length := by
  obtain ⟨p₃, p₄, p₅, hheap, htables, -, -⟩ := d.frames
  have huser := h.user
  unfold UserPages at huser
  have hfit : Fitting (Ready.tableSpace s d p₄) (d.table * PAGE_SIZE) c.image.start d.image.length :=
    h.fitting hheap htables (by rw [d.image_length]; exact huser) fun _ => id
  exact ((h.tableSpace_running hheap htables).ordinary hfit).toPlain

private theorem plain_stack (h : Fresh s c d) : Plain (rangeMem (d.tableMem s.mem s.currHeapEnd) d.directory
    (d.table * PAGE_SIZE) c.isKernelMode c.image.start d.image) d.directory (d.table * PAGE_SIZE) Space.stackStart
    d.stack.length := by
  obtain ⟨p₃, p₄, p₅, hheap, htables, himage, -⟩ := d.frames
  have huser := h.user
  unfold UserPages at huser
  have hfit : Fitting (Ready.tableSpace s d p₄) (d.table * PAGE_SIZE) c.image.start d.image.length :=
    h.fitting hheap htables (by rw [d.image_length]; exact huser) fun _ => id
  have hrun := (h.tableSpace_running hheap htables).range hfit himage c.isKernelMode
    (Ready.tableSpace s d p₄).currHeapEnd
  have hpages : Space.stackStart + d.stack.length ≤ 0xC0000 := by
    rw [d.stack_length]
    decide
  refine (hrun.ordinary (h.fitting hheap htables hpages fun f hf => ?_)).toPlain
  rw [Pmm.occupied_takeFrames himage, hf, Bool.or_true]

end Fresh

/-! ### What it owns -/

/-- An entry of a table of the kernel is as it was, or holds a frame that the heap got. -/
private theorem growMem_kernelTable {x : Nat} (h : Directory mem x) (hv : HeapPages v fs.length) (hn : 0 < fs.length)
    (hg : KernelTable g) : growMem mem x v fs g j = mem g j ∨ ∃ f ∈ fs, (growMem mem x v fs g j).address = bits20 f := by
  have hapart := h.apart
  have hbounds := hg.bounds
  rw [growMem_eq]
  exact rangeMem_frames (h.plain hv hn) (by omega)

namespace Clean

private theorem tableSpace_owning {p₃ p₄ : PmmInfo} (h : Clean s c d)
    (hheap : takeFrames d.heap.length s.pmm = some (d.heap, p₃))
    (htables : takeFrames (d.table :: d.tables).length p₃ = some (d.table :: d.tables, p₄)) :
    Owning (Ready.tableSpace s d p₄) (fun _ => False) := by
  have hhigh := h.high_directory
  have hdirectory := h.dirMem_directory
  -- the tables of the kernel are not the new directory
  have hdir : ∀ g j, 0x1100 ≤ g ∧ g < 0x1500 → d.dirMem s.mem s.currHeapEnd g j = d.heapMem s.mem s.currHeapEnd g j := by
    intro g j hg
    unfold Supply.dirMem
    rw [filled_of_ne (by omega)]
  refine ⟨h.tableSpace_running hheap htables, ?_, ?_, ?_, fun _ => False.elim, fun _ => False.elim,
    fun _ _ _ => False.elim, fun _ _ _ _ => False.elim⟩
  · intro j hlo hhi hpresent
    change (d.tableMem s.mem s.currHeapEnd d.directory j).present = true at hpresent
    show 0x1100 ≤ (d.tableMem s.mem s.currHeapEnd d.directory j).address ∧
      (d.tableMem s.mem s.currHeapEnd d.directory j).address < 0x1106
    rw [h.tableMem_image hlo hhi] at hpresent ⊢
    exact h.image j hlo hhi hpresent
  · intro g j hg hj hpresent
    change (d.tableMem s.mem s.currHeapEnd g j).present = true at hpresent
    show occupied p₄ (d.tableMem s.mem s.currHeapEnd g j).address = true
    unfold Supply.tableMem at hpresent ⊢
    obtain hsame | ⟨f, hf, haddress⟩ :=
      @growMem_kernelTable _ _ j g (d.table :: d.tables) _ hdirectory h.tablePages (Nat.succ_pos _) hg
    · rw [hsame, hdir g j hg.bounds] at hpresent ⊢
      unfold Supply.heapMem at hpresent ⊢
      obtain hsame | ⟨f, hf, haddress⟩ := @growMem_kernelTable _ _ j g d.heap _ h.kernel h.heapPages
        (by rw [d.heap_length]; omega) hg
      · rw [hsame] at hpresent ⊢
        exact Fresh.occupied_tables hheap htables (.inl (h.kernelUsed g j hg hj hpresent))
      · rw [haddress, show bits20 f = f from Nat.mod_eq_of_lt ((Pmm.takeFrames_free hheap).2 f hf).2]
        exact Fresh.occupied_tables hheap htables (.inr (.inl hf))
    · rw [haddress, show bits20 f = f from Nat.mod_eq_of_lt ((Pmm.takeFrames_free htables).2 f hf).2,
        Pmm.occupied_takeFrames htables, decide_eq_true hf, Bool.true_or]
  · intro q hlo hq
    have hlo : s.currHeapEnd + (c.growth + 5) + (c.image.tableCount + 1) ≤ q := hlo
    show (d.tableMem s.mem s.currHeapEnd (kernelTable (q / 1024)) (q % 1024)).present = false
    unfold Supply.tableMem
    rw [growMem_table hdirectory h.tablePages hq (.inr (by rw [List.length_cons, d.tables_length]; exact hlo)),
      hdir _ _ (kernelTable_kernelTable hq).bounds]
    unfold Supply.heapMem
    rw [growMem_table h.kernel h.heapPages hq (.inr (by rw [d.heap_length]; omega))]
    exact h.unmapped q (by omega) hq

/-- The new table is still empty before the image is mapped. -/
private theorem tableMem_table (h : Clean s c d) (j : Nat) :
    (d.tableMem s.mem s.currHeapEnd d.table j).present = false := by
  have hhigh := h.high_table
  have hne := d.directory_ne_table.symm
  have hkernel : d.table ≠ kernelDirectory := by
    unfold kernelDirectory
    omega
  unfold Supply.tableMem
  rw [growMem_of_ne h.dirMem_directory h.tablePages hne (.inr (by omega))]
  unfold Supply.dirMem
  rw [filled_of_ne hne, h.heapMem_of_ne hkernel (.inr (by omega))]
  exact h.table j

/-- Every page of the user's half has this table there. -/
private theorem tableSpace_tableOf (h : Clean s c d) (p₄ : PmmInfo) {q : Nat} (hq : q < 0xC0000) :
    tableOf (Ready.tableSpace s d p₄).mem (Ready.tableSpace s d p₄).cr3 (d.table * PAGE_SIZE) q = d.table := by
  have habsent : ¬ ((Ready.tableSpace s d p₄).mem (Ready.tableSpace s d p₄).cr3 (q / 1024)).present = true := by
    show ¬ (d.tableMem s.mem s.currHeapEnd d.directory (q / 1024)).present = true
    rw [h.tableMem_user (by omega), h.directory _ (by omega)]
    decide
  rw [tableOf_user hq habsent, Nat.mul_div_cancel d.table (by decide : 0 < PAGE_SIZE)]
  exact Nat.mod_eq_of_lt d.free_table.2

/-- A process of the user owns the pages of its image and its stack when no two of them share an entry of the table. -/
theorem owning (h : Clean s c d) (hmode : c.isKernelMode = false)
    (hbelow : c.image.start + c.image.pageCount ≤ Space.stackStart)
    (hslots : ∀ q q', c.image.Loads q → c.image.Loads q' → q % 1024 = q' % 1024 → q = q') :
    Owning (Fresh.process s d) c.image.Loads := by
  obtain ⟨p₃, p₄, p₅, hheap, htables, himage, hstack⟩ := d.frames
  have huser := h.user
  unfold UserPages at huser
  have hlength := d.image_length
  have hlength' := d.stack_length
  have hstart : Space.stackStart = 0xBFEFF := rfl
  obtain ⟨s₀, hs₀⟩ : ∃ s₀, s₀ = Ready.tableSpace s d p₄ := ⟨_, rfl⟩
  have htable : ∀ q, q < 0xC0000 → tableOf s₀.mem s₀.cr3 (d.table * PAGE_SIZE) q = d.table := by
    intro q hq
    rw [hs₀]
    exact h.tableSpace_tableOf p₄ hq
  have hempty : ∀ j, (s₀.mem d.table j).present = false := by
    rw [hs₀]
    exact h.tableMem_table
  have howning₀ : Owning s₀ (fun _ => False) := by
    rw [hs₀]
    exact h.tableSpace_owning hheap htables
  have hpmm₀ : s₀.pmm = p₄ := by
    rw [hs₀]
    rfl
  -- the image
  have hfit₀ : Fitting s₀ (d.table * PAGE_SIZE) c.image.start d.image.length := by
    rw [hs₀]
    exact h.fitting hheap htables (by rw [hlength]; exact huser) fun _ => id
  rw [← hpmm₀] at himage
  have howning₁ := (howning₀.withRange hfit₀ (by rw [hlength]; exact huser) himage (fun i k hik hk hsame => by
    have := hslots (c.image.start + k) (c.image.start + i) (.inl (by omega)) (.inl (by omega)) (Prod.mk.inj hsame).2
    omega) (fun q hlo hhi i hi hpresent hsame => by
    rw [htable q (by omega)]
    exact hempty _)).1
  obtain ⟨s₁, hs₁⟩ : ∃ s₁, s₁ = s₀.withRange (d.table * PAGE_SIZE) c.image.start d.image p₅ := ⟨_, rfl⟩
  rw [← hs₁] at howning₁
  have hcr3 : s₁.cr3 = s₀.cr3 := by rw [hs₁, Space.withRange_cr3]
  have hmem : s₁.mem = rangeMem s₀.mem s₀.cr3 (d.table * PAGE_SIZE) false c.image.start d.image := by
    rw [hs₁]
    rfl
  have hplain := (howning₀.toRunning.ordinary hfit₀).toPlain
  have htable₁ : ∀ q, q < 0xC0000 → tableOf s₁.mem s₁.cr3 (d.table * PAGE_SIZE) q = d.table := by
    intro q hq
    rw [hcr3, hmem, (@rangeMem_directory _ _ _ _ 0 false d.image hplain).2.2, htable q hq]
  -- the stack
  have hfit₁ : Fitting s₁ (d.table * PAGE_SIZE) Space.stackStart d.stack.length := by
    rw [hs₁, hs₀]
    refine h.fitting hheap htables (by omega) fun f hf => ?_
    rw [hpmm₀] at himage
    rw [Pmm.occupied_takeFrames himage, hf, Bool.or_true]
  rw [show p₅ = s₁.pmm by rw [hs₁, Space.withRange_pmm]] at hstack
  have howning₂ := (howning₁.withRange hfit₁ (by omega) hstack (fun i k hik hk hsame => by
    have := hslots (Space.stackStart + k) (Space.stackStart + i) (.inr (by omega)) (.inr (by omega))
      (Prod.mk.inj hsame).2
    omega) (fun q hlo hhi i hi hpresent hsame => by
    rw [htable₁ q (by omega), hmem, rangeMem_of_ne hplain]
    · exact hempty _
    · rw [hs₀]
      exact d.directory_ne_table.symm
    · intro q' hlo' hhi' hslot
      have := hslots q' q (.inl (by omega)) (.inr (by omega)) (Prod.mk.inj hslot).2
      omega)).1
  have heq : Fresh.process s d = s₁.withRange (d.table * PAGE_SIZE) Space.stackStart d.stack d.rest := by
    rw [Fresh.process_eq s d p₄, hmode, hs₁, hs₀]
    rfl
  rw [heq]
  refine howning₂.congr fun q => ?_
  unfold Space.Image.Loads
  rw [hlength, hlength']
  tauto

/-- The new table has, besides what it held, frames of the image and of the stack. -/
private theorem process_table (h : Clean s c d) (hpresent : ((Fresh.process s d).mem d.table j).present = true) :
    ∃ f ∈ d.image ++ d.stack, ((Fresh.process s d).mem d.table j).address = bits20 f := by
  obtain ⟨-, p₄, -⟩ := d.frames
  have hne : d.table ≠ d.directory := d.directory_ne_table.symm
  rw [Fresh.process_eq s d p₄] at hpresent ⊢
  dsimp only at hpresent ⊢
  obtain hsame | ⟨f, hf, haddress⟩ := @rangeMem_frames _ _ _ _ _ j c.isKernelMode d.stack h.plain_stack hne
  · rw [hsame] at hpresent ⊢
    obtain hold | ⟨f, hf, haddress⟩ := @rangeMem_frames _ _ _ _ _ j c.isKernelMode d.image h.plain_image hne
    · rw [hold, h.tableMem_table] at hpresent
      cases hpresent
    · exact ⟨f, List.mem_append_left _ hf, haddress⟩
  · exact ⟨f, List.mem_append_right _ hf, haddress⟩

/-- Every page of the user's half has this table. -/
private theorem process_directory (h : Clean s c d) {q : Nat} (hq : q < 0xC0000)
    (hpresent : ((Fresh.process s d).mem (Fresh.process s d).cr3 (q / 1024)).present = true) :
    ((Fresh.process s d).mem (Fresh.process s d).cr3 (q / 1024)).address = d.table := by
  obtain ⟨-, p₄, -⟩ := d.frames
  have hdir₀ := (@rangeMem_directory _ _ _ _ 0 c.isKernelMode d.image h.plain_image).2.2 q
  have hdir₁ := (@rangeMem_directory _ _ _ _ 0 c.isKernelMode d.stack h.plain_stack).2.2 q
  rw [← @tableOf_of_present _ _ (d.table * PAGE_SIZE) q hpresent, Fresh.process_eq s d p₄]
  exact hdir₁.trans (hdir₀.trans (h.tableSpace_tableOf p₄ hq))

/-- A page of the user's half is mapped to a frame that was taken for the process. -/
theorem translate_taken (h : Clean s c d) {q f : Nat} (hq : q < 0xC0000)
    (hf : translate (Fresh.process s d).mem (Fresh.process s d).cr3 q = some f) :
    occupied s.pmm f = false ∧ f < 0x100000 := by
  obtain ⟨hdir, htable, rfl⟩ := translate_eq_some.1 hf
  rw [h.process_directory hq hdir] at htable ⊢
  obtain ⟨f, hmem, haddress⟩ := h.process_table htable
  have hfree := (Pmm.takeFrames_free d.taken).2 f (by
    simp only [List.mem_append] at hmem ⊢
    tauto)
  rw [haddress, show bits20 f = f from Nat.mod_eq_of_lt hfree.2]
  exact hfree

/-- A page with another entry of the table than those of the image and the stack is not mapped. -/
theorem translate_none (h : Clean s c d) {q : Nat} (hq : q < 0xC0000)
    (hslot : ∀ q', c.image.Loads q' → q' % 1024 ≠ q % 1024) :
    translate (Fresh.process s d).mem (Fresh.process s d).cr3 q = none := by
  obtain ⟨-, p₄, -⟩ := d.frames
  have hlength := d.image_length
  have hlength' := d.stack_length
  have hne : d.table ≠ d.directory := d.directory_ne_table.symm
  -- the entry of the page is still that of the new table
  have hentry : ((Fresh.process s d).mem d.table (q % 1024)).present = false := by
    rw [Fresh.process_eq s d p₄]
    dsimp only
    rw [rangeMem_of_ne h.plain_stack hne, rangeMem_of_ne h.plain_image hne]
    · exact h.tableMem_table _
    · intro q' hlo hhi hsame
      exact hslot q' (.inl ⟨hlo, by omega⟩) (Prod.mk.inj hsame).2
    · intro q' hlo hhi hsame
      exact hslot q' (.inr ⟨hlo, by omega⟩) (Prod.mk.inj hsame).2
  unfold translate PAGES_PER_TABLE
  dsimp only
  by_cases hpresent : ((Fresh.process s d).mem (Fresh.process s d).cr3 (q / 1024)).present = true
  · rw [if_pos hpresent, h.process_directory hq hpresent, hentry]
    rfl
  · rw [if_neg hpresent]

end Clean

/-! ### After the boot -/

/-- The tables that `init_paging` fills, and the empty ones. -/
private theorem bootMemory_table (stale : Memory) (hlo : 0x1100 ≤ g) (hhi : g < 0x1500) : System.bootMemory stale g j =
    if g < 0x1118 then System.identityEntry ((g - 0x1100) * 1024 + j) else .zero := by
  have hdirectory : KERNEL_PAGE_DIR_PHYS_ADDR / PAGE_SIZE = 6 := rfl
  have htables : KERNEL_PAGE_TABLES_PHYS_ADDR / PAGE_SIZE = 0x1100 := rfl
  unfold System.bootMemory
  dsimp only
  rw [hdirectory, htables, if_neg (by omega)]
  by_cases hg : g < 0x1118
  · rw [if_pos (by omega), if_pos hg]
  · rw [if_neg (by omega), if_pos (by omega), if_neg hg]

/-- With empty frames the first creation finds the kernel's tables and its own as `Clean` asks for. -/
private theorem boot_clean {mbi : Pmm.MultibootInfo} {t : System} (hboot : System.boot mbi (fun _ _ => .zero) = some t)
    {d : Supply c t.space.pmm} (h : Ready t.space c d) : Clean t.space c d := by
  have hdirectory := h.high_directory
  have htable := h.high_table
  have hlow := h.low
  have hhigh : ∀ g, 0x1500 ≤ g → t.space.mem g = fun _ => .zero := fun g hg => boot_high hboot hg
  obtain ⟨p, f, p', -, hf, hne, ht⟩ := boot_eq hboot
  have hheap : HeapPages KERNEL_CODE_END [f].length := by
    intro q hlo hhi
    have : KERNEL_CODE_END = 0xC1800 := rfl
    rw [List.length_singleton] at hhi
    unfold HeapPage
    omega
  have hmem : t.space.mem = growMem (System.bootMemory fun _ _ => .zero) kernelDirectory KERNEL_CODE_END [f] := by
    rw [ht]
    rfl
  have hend : t.space.currHeapEnd = KERNEL_CODE_END + [f].length := by
    rw [ht]
    rfl
  have hpmm : t.space.pmm = p' := by
    rw [ht]
  have hone : takeFrames 1 p = some ([f], p') := Pmm.takeFrames_succ.2 ⟨f, p', [], hf, hne, rfl, rfl⟩
  have hlt : f < 0x100000 := ((Pmm.takeFrames_free hone).2 f List.mem_cons_self).2
  have hused : occupied t.space.pmm f = true := by
    rw [hpmm]
    obtain ⟨hzero, -⟩ | ⟨-, hocc⟩ := Pmm.pmmAllocatePage_cases hf
    · exact absurd hzero hne
    · rw [hocc, decide_eq_true rfl, Bool.true_or]
  refine ⟨⟨h, fun j _ => ?_, fun j hlo hhi hpresent => ?_⟩, fun j => ?_, fun g j hg hj hpresent => ?_, fun q hlo hq => ?_⟩
  · rw [hhigh _ (by omega)]
    rfl
  · have hboot : System.bootMemory (fun _ _ => .zero) kernelDirectory j =
        System.identityEntry (0x1100 + (j - 768)) := by
      show (if j < 6 then _ else if 768 ≤ j ∧ j < 774 then _ else _) = _
      rw [if_neg (by omega), if_pos ⟨hlo, hhi⟩]
      rfl
    have hentry : t.space.mem kernelDirectory j = System.identityEntry (0x1100 + (j - 768)) := by
      rw [hmem, growMem_of_present bootMemory_directory hheap (by rw [hboot]; rfl), hboot]
    rw [hentry]
    show 0x1100 ≤ 0x1100 + (j - 768) ∧ 0x1100 + (j - 768) < 0x1106
    omega
  · rw [hhigh _ (by omega)]
    rfl
  · rw [hmem] at hpresent ⊢
    obtain hsame | ⟨f', hf', haddress⟩ := @growMem_kernelTable _ _ j g [f] _ bootMemory_directory hheap (by simp) hg
    · obtain ⟨hglo, hghi⟩ := hg.bounds
      rw [hsame, bootMemory_table _ hglo hghi] at hpresent ⊢
      have himage : g < 0x1106 := by
        by_contra hlt
        rw [if_neg (by unfold KernelTable at hg; omega)] at hpresent
        cases hpresent
      rw [if_pos (by omega)]
      apply hlow
      show (g - 0x1100) * 1024 + j < 0x1800
      omega
    · obtain rfl : f' = f := List.mem_singleton.1 hf'
      rwa [haddress, show bits20 f' = f' from Nat.mod_eq_of_lt hlt]
  · rw [hend] at hlo
    rw [hmem, growMem_table bootMemory_directory hheap hq (.inr hlo)]
    obtain ⟨hqlo, hqhi⟩ := hq
    unfold kernelTable
    rw [bootMemory_table _ (by omega) (by omega), if_neg (by omega)]
    rfl

/-- On `bigMachine` with empty frames the first process is created, if it is not too large, and frames are left. -/
theorem exists_process {c : Space.Creation} (hpages : UserPages c.image.start c.image.pageCount)
    (hsmall : c.growth + c.image.tableCount + c.image.pageCount < 0x1000) (hbreak : c.image.programBreak ≠ 0) :
    ∃ (s : Space) (d : Supply c s.pmm) (pd : Nat) (s₁ : Space), Clean s c d ∧ s.currHeapEnd = 0xC1801 ∧
      s.createProcessFromElf c = some (some pd, s₁) ∧
      { s₁ with cr3 := d.directory, currentPageDirectory := pd } = Fresh.process s d ∧
      ∀ n < 0x10000, (takeFrames n d.rest).isSome = true := by
  obtain ⟨t, hboot, d, hready, hrest⟩ := exists_ready hpages hsmall
  have hclean := boot_clean hboot hready
  have hcreate := hready.createProcessFromElf_eq hbreak
  refine ⟨t.space, d, _, _, hclean, (boot_heap hboot).2.1, hcreate, hclean.process_of_create hcreate, fun n hn => ?_⟩
  obtain ⟨fs, p', hfs⟩ := hrest n hn
  rw [hfs]
  rfl

end DBolOS.Paging
