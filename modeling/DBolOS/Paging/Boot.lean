import DBolOS.Paging.NewSpace

/-!
# The address space at boot

After `pmm_init` and `heap_init` the kernel's directory is loaded, with one page of the heap, and the frames of the
first 24 MiB are not free (`boot_eq`, `boot_sane`).
-/

namespace DBolOS.Paging

open Pmm (PmmInfo pmmAllocatePage takeFrames pmmInit MultibootInfo)

variable {stale : Memory} {mbi : MultibootInfo} {t : System}

/-! ### The memory -/

private theorem bootMemory_present {i : Nat} (hi : i < 1023)
    (hpresent : (System.bootMemory stale kernelDirectory i).present = true) :
    i < 774 := by
  by_contra hlt
  have hentry : System.bootMemory stale kernelDirectory i = .zero := by
    show (if i < 6 then _ else if 768 ≤ i ∧ i < 774 then _ else if i = 1023 then _ else _) = _
    rw [if_neg (by omega), if_neg (by omega), if_neg (by omega)]
  rw [hentry] at hpresent
  cases hpresent

theorem bootMemory_directory : Directory (System.bootMemory stale) kernelDirectory := by
  refine ⟨⟨rfl, rfl⟩, ?_, Or.inl (by decide)⟩
  intro i hlo hhi hpresent
  have := bootMemory_present hhi hpresent
  omega

private theorem bootMemory_window : Window (System.bootMemory stale) kernelDirectory := ⟨rfl, rfl, rfl, rfl⟩

private theorem bootMemory_high {f : Nat} (hf : 0x1500 ≤ f) : System.bootMemory stale f = stale f := by
  funext i
  have hdirectory : KERNEL_PAGE_DIR_PHYS_ADDR / PAGE_SIZE = 6 := rfl
  have htables : KERNEL_PAGE_TABLES_PHYS_ADDR / PAGE_SIZE = 0x1100 := rfl
  unfold System.bootMemory
  dsimp only
  rw [hdirectory, htables, if_neg (by omega), if_neg (by omega), if_neg (by omega)]

/-! ### The system -/

/-- The heap has the one page that `heap_init` asks for. -/
theorem boot_eq (h : System.boot mbi stale = some t) : ∃ p f p', pmmInit .static (some mbi) = some (.success, p) ∧
    pmmAllocatePage p = some (f, p') ∧ f ≠ 0 ∧ t =
      { space :=
          { mem := heapMapped (System.bootMemory stale) kernelDirectory KERNEL_CODE_END f
            pmm := p'
            cr3 := kernelDirectory
            currentPageDirectory := Space.kernelPd
            currHeapEnd := KERNEL_CODE_END + 1 }
        pageDirectories := [] } := by
  obtain ⟨⟨status, p⟩, hinit, h⟩ := Option.bind_eq_some_iff.1 h
  dsimp only at h
  split at h
  · cases h
  rename_i hstatus
  rw [not_not] at hstatus
  obtain ⟨⟨allocated, s⟩, hpage, h⟩ := Option.bind_eq_some_iff.1 h
  dsimp only at h
  have hheap : HeapPage KERNEL_CODE_END := by
    unfold HeapPage
    decide
  rw [hstatus] at hinit
  have hlow := Pmm.pmmInit_low hinit (show 0 < 0x1800 by decide)
  obtain ⟨rfl, -, -⟩ | ⟨f, p', rfl, hf, hne, -, rfl⟩ :=
    Space.allocateHeapPage_cases bootMemory_directory hlow (fun _ => hheap) hpage
  · cases h
  · cases h
    exact ⟨p, f, p', hinit, hf, hne, rfl⟩

theorem boot_sane (h : System.boot mbi stale = some t) : Sane t.space := by
  obtain ⟨p, f, p', hinit, hf, hne, rfl⟩ := boot_eq h
  have hheap : HeapPage KERNEL_CODE_END := by
    unfold HeapPage
    decide
  have hlow : ∀ g, g < 0x1800 → Pmm.occupied p' g = true := by
    intro g hg
    obtain ⟨hzero, -⟩ | ⟨-, hocc⟩ := Pmm.pmmAllocatePage_cases hf
    · exact absurd hzero hne
    · rw [hocc, Pmm.pmmInit_low hinit hg, Bool.or_true]
  have hdirectory : Directory (heapMapped (System.bootMemory stale) kernelDirectory KERNEL_CODE_END f) kernelDirectory :=
    bootMemory_directory.heapMapped hheap
  have hwindow : Window (heapMapped (System.bootMemory stale) kernelDirectory KERNEL_CODE_END f) kernelDirectory := by
    apply bootMemory_window.congr
    · exact heapMapped_of_present bootMemory_directory hheap bootMemory_window.present
    · exact heapMapped_of_ne bootMemory_directory hheap (by decide) (Or.inl (by decide))
  exact ⟨hdirectory, hwindow, hdirectory.toSelfMapped, hwindow, hlow _ (show 6 < 0x1800 by decide),
    show Space.kernelPd < 0x100000 by decide, hlow⟩

/-- There is no process yet, and of the heap's entries the first is there. -/
theorem boot_heap (h : System.boot mbi stale = some t) : t.pageDirectories = [] ∧ t.space.currHeapEnd = 0xC1801 ∧
    ∀ i, 774 ≤ i → i < 1023 → ((t.space.mem kernelDirectory i).present = true ↔ i = 774) := by
  obtain ⟨p, f, p', -, -, -, rfl⟩ := boot_eq h
  have hheap : HeapPage KERNEL_CODE_END := by
    unfold HeapPage
    decide
  refine ⟨rfl, rfl, ?_⟩
  intro i hlo hhi
  show (heapMapped (System.bootMemory stale) kernelDirectory KERNEL_CODE_END f kernelDirectory i).present = true ↔ _
  rw [heapMapped_self bootMemory_directory hheap, show KERNEL_CODE_END / 1024 = 774 from rfl]
  split
  · rename_i hi
    exact iff_of_true (tableFor_present _ _ _ _) hi
  · rename_i hi
    refine iff_of_false ?_ hi
    intro hpresent
    have := bootMemory_present hhi hpresent
    omega

/-- What lies above the kernel's tables is as it was. -/
theorem boot_high (h : System.boot mbi stale = some t) {f : Nat} (hf : 0x1500 ≤ f) : t.space.mem f = stale f := by
  obtain ⟨p, g, p', -, -, -, rfl⟩ := boot_eq h
  have hheap : HeapPage KERNEL_CODE_END := by
    unfold HeapPage
    decide
  refine (heapMapped_of_ne bootMemory_directory hheap ?_ (Or.inr hf)).trans (bootMemory_high hf)
  unfold kernelDirectory
  omega

/-! ### Enough frames -/

private theorem exists_append {α : Type} {as : List α} {m n : Nat} (h : as.length = m + n) :
    ∃ bs cs, as = bs ++ cs ∧ bs.length = m ∧ cs.length = n := by
  refine ⟨as.take m, as.drop m, (List.take_append_drop m as).symm, ?_, ?_⟩
  · rw [List.length_take]
    omega
  · rw [List.length_drop]
    omega

/-- The frames a creation takes, when there are so many. -/
private theorem exists_supply {c : Space.Creation} {p p' : PmmInfo} {fs : List Nat}
    (h : takeFrames (c.growth + (3 + (2 + (c.image.tableCount + 1 + (c.image.pageCount + 256))))) p = some (fs, p')) :
    Nonempty (Supply c p) := by
  obtain ⟨node, fs₁, rfl, hnode, h₁⟩ := exists_append (Pmm.takeFrames_length h)
  obtain ⟨kernelStack, fs₂, rfl, hkernelStack, h₂⟩ := exists_append h₁
  obtain ⟨directories, fs₃, rfl, hdirectories, h₃⟩ := exists_append h₂
  obtain ⟨tables, fs₄, rfl, htables, h₄⟩ := exists_append h₃
  obtain ⟨image, stack, rfl, himage, hstack⟩ := exists_append h₄
  obtain ⟨directory, spare, rfl⟩ := List.length_eq_two.1 hdirectories
  cases tables with
  | nil => cases htables
  | cons table tables =>
    exact ⟨node, kernelStack, directory, spare, table, tables, image, stack, p', hnode, hkernelStack,
      Nat.succ.inj htables, himage, hstack, h⟩

/-- `bigMachine` boots, and most of its frames are still there. -/
theorem exists_boot_bigMachine (stale : Memory) : ∃ t, System.boot Pmm.bigMachine stale = some t ∧
    ∀ n < 0x40000, ∃ fs p', takeFrames n t.space.pmm = some (fs, p') := by
  obtain ⟨p, hinit, htake⟩ := Pmm.exists_takeFrames_bigMachine
  obtain ⟨fs, p', hone⟩ := htake 1 (by omega)
  obtain ⟨f, p₁, -, hf, hne, -, -⟩ := Pmm.takeFrames_succ.1 hone
  have hheap : HeapPage KERNEL_CODE_END := by
    unfold HeapPage
    decide
  have hpage := Space.allocateHeapPage_eq (s := ⟨System.bootMemory stale, p, kernelDirectory, Space.kernelPd,
    KERNEL_CODE_END⟩) bootMemory_directory hheap hf hne
  refine ⟨⟨⟨heapMapped (System.bootMemory stale) kernelDirectory KERNEL_CODE_END f, p₁, kernelDirectory,
    Space.kernelPd, KERNEL_CODE_END + 1⟩, []⟩, ?_, ?_⟩
  · unfold System.boot
    simp only [hinit, Option.bind_eq_bind, Option.bind_some, ne_eq, not_true_eq_false, if_false]
    change Option.bind (Space.allocateHeapPage ⟨System.bootMemory stale, p, kernelDirectory, Space.kernelPd,
      KERNEL_CODE_END⟩) _ = _
    rw [hpage]
    rfl
  · intro n hn
    obtain ⟨fs, p', hsucc⟩ := htake (n + 1) (by omega)
    obtain ⟨g, p₂, gs, hg, -, hgs, -⟩ := Pmm.takeFrames_succ.1 hsucc
    rw [hf] at hg
    cases hg
    exact ⟨gs, p', hgs⟩

/-- A process with one page of code. -/
def smallCreation : Space.Creation :=
  { image := { entry := 0x8048000, size := 0x1000, programBreak := 0x8049000 }
    isKernelMode := false
    growth := 0
    lastPage := fun _ => false }

/-- On `bigMachine` with empty frames a first creation that is not too large is ready, and leaves frames. -/
theorem exists_ready {c : Space.Creation} (hpages : UserPages c.image.start c.image.pageCount)
    (hsmall : c.growth + c.image.tableCount + c.image.pageCount < 0x1000) :
    ∃ t, System.boot Pmm.bigMachine (fun _ _ => .zero) = some t ∧ ∃ d : Supply c t.space.pmm, Ready t.space c d ∧
      ∀ n < 0x10000, ∃ fs p', takeFrames n d.rest = some (fs, p') := by
  obtain ⟨t, hboot, htake⟩ := exists_boot_bigMachine fun _ _ => .zero
  obtain ⟨m, hm⟩ : ∃ m, m = c.growth + (3 + (2 + (c.image.tableCount + 1 + (c.image.pageCount + 256)))) := ⟨_, rfl⟩
  obtain ⟨fs, p', hsupply⟩ := htake m (by omega)
  rw [hm] at hsupply
  obtain ⟨d⟩ := exists_supply hsupply
  have hsane := boot_sane hboot
  have hend := (boot_heap hboot).2.1
  refine ⟨t, hboot, d, ⟨hsane, ?_, hpages, ?_⟩, ?_⟩
  · intro q hlo hhi
    rw [hend] at hlo hhi
    unfold HeapPage
    omega
  · intro q _ hpresent
    have hhigh := hsane.high d.free_directory.1
    rw [boot_high hboot (by omega)] at hpresent
    cases hpresent
  · intro n hn
    obtain ⟨gs, p₂, hall⟩ := htake (m + n) (by omega)
    obtain ⟨p₁, hfirst, hrest⟩ := Pmm.takeFrames_add hall
    have htaken := d.taken
    rw [hm, htaken, Option.some.injEq, Prod.mk.injEq] at hfirst
    rw [hfirst.2]
    exact ⟨_, p₂, hrest⟩

/-- On `bigMachine` with empty frames the first creation is ready, and leaves frames. -/
theorem exists_ready_bigMachine : ∃ t, System.boot Pmm.bigMachine (fun _ _ => .zero) = some t ∧
    ∃ d : Supply smallCreation t.space.pmm, Ready t.space smallCreation d ∧
      ∀ n < 0x10000, ∃ fs p', takeFrames n d.rest = some (fs, p') :=
  exists_ready (by unfold UserPages; decide) (by decide)

end DBolOS.Paging
