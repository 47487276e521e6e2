import DBolOS.Paging.Shared

/-!
# The kernel's half of all address spaces

A directory gets the kernel's entries once, when its process is created.  While every page of the heap that is mapped
has its entry in the kernel's directory already, or there is no process, all directories agree on the kernel's half
(`kernelHalf_agrees`).  A page of the heap behind a new entry is mapped in the directory that is loaded and in no other
(`exists_kernelHalf_differs`).
-/

namespace DBolOS.Paging

open Pmm (PmmInfo pmmAllocatePage takeFrames)

variable {s s' : Space} {t t' : System} {pd x q : Nat} {c : Space.Creation}

/-! ### Creating a process -/

namespace Supply

variable {p : PmmInfo}

/-- Afterwards the frames that were taken are in use, with those that were before. -/
private theorem occupied_rest (d : Supply c p) {f : Nat} (hf : Pmm.occupied p f = true ∨ f = d.directory) :
    Pmm.occupied d.rest f = true := by
  rw [Pmm.occupied_takeFrames d.taken]
  obtain hf | rfl := hf
  · rw [hf, Bool.or_true]
  · simp

private theorem ne_of_used (d : Supply c p) {f : Nat} (hf : Pmm.occupied p f = true) :
    f ≠ d.directory ∧ f ≠ d.table := by
  constructor
  · rintro rfl
    rw [d.free_directory.1] at hf
    cases hf
  · rintro rfl
    rw [d.free_table.1] at hf
    cases hf

end Supply

namespace Ready

variable {d : Supply c s.pmm}

/-- The entries of the heap pages below the end of the heap stay as they are. -/
private theorem loadMem_table (h : Ready s c d) (hq : HeapPage q) (hlt : q < s.currHeapEnd) :
    d.loadMem s.mem s.currHeapEnd (kernelTable (q / 1024)) (q % 1024) =
      s.mem (kernelTable (q / 1024)) (q % 1024) := by
  have hdirectory := h.high_directory
  have htable := h.high_table
  have hbelow : kernelTable (q / 1024) < 0x1500 := by
    have := hq.2
    unfold kernelTable
    omega
  calc d.loadMem s.mem s.currHeapEnd (kernelTable (q / 1024)) (q % 1024)
      = d.tableMem s.mem s.currHeapEnd (kernelTable (q / 1024)) (q % 1024) := by
        rw [h.loadMem_of_ne (by omega) (by omega)]
    _ = d.dirMem s.mem s.currHeapEnd (kernelTable (q / 1024)) (q % 1024) :=
        growMem_table h.dirMem_directory h.tablePages hq (.inl (by omega))
    _ = d.heapMem s.mem s.currHeapEnd (kernelTable (q / 1024)) (q % 1024) := by
        unfold Supply.dirMem
        rw [filled_of_ne (by omega)]
    _ = s.mem (kernelTable (q / 1024)) (q % 1024) := growMem_table h.kernel h.heapPages hq (.inl hlt)

/-- Where the kernel's directory has the entries already, the creation extends the space. -/
private theorem loadedSpace_extends (h : Ready s c d)
    (hpresent : ∀ k < c.growth + 5, (s.mem kernelDirectory ((s.currHeapEnd + k) / 1024)).present = true) :
    Extends s (loadedSpace s d) := by
  refine ⟨?_, h.loadMem_window_table, ?_, ?_, ?_, ?_⟩
  · refine h.loadMem_kernel.trans (growMem_self h.kernel h.heapPages ?_)
    intro q hlo hhi
    rw [d.heap_length] at hhi
    obtain ⟨k, rfl⟩ := Nat.exists_eq_add_of_le hlo
    exact hpresent k (by omega)
  · intro f hhigh hf
    obtain ⟨hdirectory, htable⟩ := d.ne_of_used hf
    have hne : f ≠ kernelDirectory := by
      unfold kernelDirectory
      omega
    exact (h.loadMem_low hdirectory htable (by omega)).trans (h.heapMem_of_ne hne (by omega))
  · intro q hq hlt
    exact h.loadMem_table hq hlt
  · intro f hf
    exact d.occupied_rest (Or.inl hf)
  · show s.currHeapEnd ≤ s.currHeapEnd + (c.growth + 5) + (c.image.tableCount + 1)
    omega

private theorem loadMem_directory (h : Ready s c d) : Directory (d.loadMem s.mem s.currHeapEnd) kernelDirectory := by
  refine ⟨h.heapMem_directory.toSelfMapped.congr (congrFun h.loadMem_kernel 1023), ?_, Or.inl (by decide)⟩
  rw [h.loadMem_kernel]
  exact h.heapMem_directory.tables

/-- The entries that the kernel's directory has for the pages of the tables. -/
private theorem heapMem_present (h : Ready s c d)
    (hq : (s.mem kernelDirectory (q / 1024)).present = true ∨ q / 1024 = (s.currHeapEnd + (c.growth + 4)) / 1024) :
    (d.heapMem s.mem s.currHeapEnd kernelDirectory (q / 1024)).present = true := by
  obtain hpresent | hlast := hq
  · unfold Supply.heapMem
    rw [growMem_of_present h.kernel h.heapPages hpresent]
    exact hpresent
  · have hk : d.heap[c.growth + 4]? = some d.spare := by
      unfold Supply.heap
      rw [List.getElem?_append_right (by simp [d.node_length, d.kernelStack_length])]
      simp [d.node_length, d.kernelStack_length]
    have := (translate_eq_some.1 (translate_growMem h.kernel h.heapPages hk)).1
    rw [hlast]
    exact this

/-- Where the pages of the tables need no other entries, the new directory has those of the kernel's. -/
private theorem holds (h : Ready s c d)
    (htables : ∀ q, s.currHeapEnd + (c.growth + 5) ≤ q →
      q < s.currHeapEnd + (c.growth + 5) + (c.image.tableCount + 1) →
        (s.mem kernelDirectory (q / 1024)).present = true ∨ q / 1024 = (s.currHeapEnd + (c.growth + 4)) / 1024)
    (cr3 currentPageDirectory : Nat) :
    Holds { loadedSpace s d with cr3, currentPageDirectory } (s.currHeapEnd + (c.growth + 3)) d.directory := by
  have hend : s.currHeapEnd + (c.growth + 3) < s.currHeapEnd + (c.growth + 5) + (c.image.tableCount + 1) := by omega
  refine ⟨h.heapPages _ (by omega) (by rw [d.heap_length]; omega), hend, h.loadMem_page,
    d.occupied_rest (Or.inr rfl), h.high_directory, userMem_self h.loadable_stack, ?_⟩
  intro i hlo hhi
  have hgrow : d.tableMem s.mem s.currHeapEnd d.directory = d.dirMem s.mem s.currHeapEnd d.directory := by
    apply growMem_self h.dirMem_directory h.tablePages
    intro q hqlo hqhi
    have hpage := h.tablePages q hqlo hqhi
    rw [List.length_cons, d.tables_length] at hqhi
    unfold Supply.dirMem
    rw [filled_kernel (by have := hpage.1; omega) hpage.2]
    exact h.heapMem_present (htables q hqlo hqhi)
  show d.loadMem s.mem s.currHeapEnd d.directory i = d.loadMem s.mem s.currHeapEnd kernelDirectory i
  rw [h.loadMem_entry hlo, hgrow, h.loadMem_kernel]
  exact filled_kernel hlo hhi

end Ready

/-- A creation with the frames `d`: it is ready, the pages of the heap have their tables, and a creation that fails
gives no page back. -/
structure Creates (t : System) (c : Space.Creation) (d : Supply c t.space.pmm) : Prop where
  covered : ∀ k < c.growth + 5, Covered t (t.space.currHeapEnd + k)
  tables : ∀ q, t.space.currHeapEnd + (c.growth + 5) ≤ q →
    q < t.space.currHeapEnd + (c.growth + 5) + (c.image.tableCount + 1) → HeapPage q ∧
      ((t.space.mem kernelDirectory (q / 1024)).present = true ∨
        q / 1024 = (t.space.currHeapEnd + (c.growth + 4)) / 1024)
  user : UserPages c.image.start c.image.pageCount
  stale : ∀ q, c.image.Loads q → PointsTo t.space.mem d.directory d.table (q / 1024)
  keeps : c.image.programBreak = 0 → c.lastPage 1 = false ∧ c.lastPage 2 = false

namespace Coherent

variable {d : Supply c t.space.pmm}

private theorem ready (h : Coherent t) (hc : Creates t c d) : Ready t.space c d := by
  refine ⟨h.sane, ?_, hc.user, hc.stale⟩
  intro q hlo hhi
  by_cases hq : q < t.space.currHeapEnd + (c.growth + 5)
  · obtain ⟨k, rfl⟩ := Nat.exists_eq_add_of_le hlo
    exact (hc.covered k (by omega)).page
  · exact (hc.tables q (by omega) (by omega)).1

/-- The directories of the processes stay, and so does the page that was loaded. -/
private theorem create_keeps (h : Coherent t) (hc : Creates t c d) (hpd : pd ∈ t.pageDirectories) :
    ∃ x, Holds t.space pd x ∧ Holds (Ready.loadedSpace t.space d) pd x := by
  obtain ⟨x, hx⟩ := h.live pd hpd
  refine ⟨x, hx, Extends.holds ((h.ready hc).loadedSpace_extends ?_) h.kernel hx⟩
  intro k hk
  obtain hnil | hpresent := (hc.covered k hk).table
  · rw [hnil] at hpd
    cases hpd
  · exact hpresent

private theorem loadedSpace (h : Coherent t) (hc : Creates t c d) :
    Coherent { t with space := Ready.loadedSpace t.space d } := by
  have hready := h.ready hc
  refine ⟨hready.loadMem_directory, hready.loadMem_window, ?_, ?_, Or.inl ⟨rfl, rfl⟩⟩
  · intro f hf
    exact d.occupied_rest (Or.inl (h.low f hf))
  · intro pd hpd
    obtain ⟨x, -, hx⟩ := h.create_keeps hc hpd
    exact ⟨x, hx⟩

/-- Loading a directory that a process holds, or the kernel's, leaves the rest. -/
private theorem load (h : Coherent t) {cr3 currentPageDirectory : Nat}
    (hloaded : Loaded { t.space with cr3, currentPageDirectory } t.pageDirectories) :
    Coherent { t with space := { t.space with cr3, currentPageDirectory } } := by
  refine ⟨h.kernel, h.window, h.low, ?_, hloaded⟩
  intro pd hpd
  obtain ⟨x, hx⟩ := h.live pd hpd
  exact ⟨x, hx.page, hx.below, hx.frame, hx.used, hx.high, hx.self, hx.half⟩

private theorem add (h : Coherent t) (hx : Holds t.space pd x) :
    Coherent { t with pageDirectories := t.pageDirectories ++ [pd] } := by
  refine ⟨h.kernel, h.window, h.low, ?_, ?_⟩
  · intro pd' hmem
    obtain hmem | hmem := List.mem_append.1 hmem
    · exact h.live pd' hmem
    · rw [List.mem_singleton.1 hmem]
      exact ⟨x, hx⟩
  · obtain hkernel | ⟨hmem, hframe⟩ := h.loaded
    · exact Or.inl hkernel
    · exact Or.inr ⟨List.mem_append_left _ hmem, hframe⟩

private theorem create (h : Coherent t) (hc : Creates t c d) (hs : System.step t (.create c) = some t') :
    Coherent t' := by
  have hready := h.ready hc
  have hloaded := h.loadedSpace hc
  obtain ⟨⟨result, space⟩, hcreate, hs⟩ := Option.bind_eq_some_iff.1 hs
  cases hs
  by_cases hbreak : c.image.programBreak = 0
  · obtain ⟨hfirst, hsecond⟩ := hc.keeps hbreak
    rw [hready.createProcessFromElf_none hbreak hfirst hsecond] at hcreate
    cases hcreate
    simp only [Option.toList_none, List.append_nil]
    exact hloaded
  · rw [hready.createProcessFromElf_eq hbreak] at hcreate
    cases hcreate
    have hnew := hready.holds (fun q hlo hhi => (hc.tables q hlo hhi).2)
    refine add (load hloaded ?_) (hnew _ _)
    -- the directory that was loaded is loaded again
    obtain ⟨-, hkernel⟩ | ⟨hmem, -⟩ := h.loaded
    · left
      refine ⟨?_, hkernel⟩
      show (translate (d.loadMem t.space.mem t.space.currHeapEnd) kernelDirectory
        t.space.currentPageDirectory).getD 0 = kernelDirectory
      rw [hkernel, hready.loadMem_window.translate]
      rfl
    · right
      obtain ⟨x, -, hx⟩ := h.create_keeps hc hmem
      have hframe : translate (d.loadMem t.space.mem t.space.currHeapEnd) kernelDirectory
        t.space.currentPageDirectory = some x := hx.frame
      refine ⟨hmem, ?_⟩
      show translate (d.loadMem t.space.mem t.space.currHeapEnd) kernelDirectory t.space.currentPageDirectory =
        some ((translate (d.loadMem t.space.mem t.space.currHeapEnd) kernelDirectory
          t.space.currentPageDirectory).getD 0)
      rw [hframe]
      rfl

/-! ### The other steps -/

private theorem switch (h : Coherent t) (hs : System.step t (.switch pd) = some t') : Coherent t' := by
  change (if pd ∈ t.pageDirectories then _ else _) = _ at hs
  split at hs
  · rename_i hmem
    obtain ⟨space, hload, hs⟩ := Option.bind_eq_some_iff.1 hs
    cases hs
    obtain ⟨x, hx⟩ := h.live pd hmem
    obtain ⟨hlo, hhi⟩ := hx.page
    have hpage : pd < 0x100000 := by omega
    have hframe : translate t.space.mem t.space.cr3 pd = some x := by
      rw [translate_congr (h.half (by omega) hhi)]
      exact hx.frame
    rw [Space.loadPd_eq h.sane.loaded hpage, hframe] at hload
    cases hload
    exact h.load (Or.inr ⟨hmem, hx.frame⟩)
  · cases hs

/-- What `kmalloc_pages` needs: it refuses the amount, no frame is left, or all are there and the pages have their
tables. -/
def PagesCovered (t : System) (pageAmount : Nat) : Prop :=
  pageAmount = 0 ∨ KERNEL_HEAP_END - KERNEL_CODE_END < pageAmount ∨ takeFrames 1 t.space.pmm = none ∨
    ((takeFrames (pageAmount + 1) t.space.pmm).isSome = true ∧
      ∀ k < pageAmount + 1, Covered t (t.space.currHeapEnd + k))

private theorem kmallocPages {pageAmount : Nat} (h : Coherent t) (hv : PagesCovered t pageAmount)
    (hs : System.step t (.kmallocPages pageAmount) = some t') : Coherent t' := by
  obtain ⟨⟨result, space⟩, hpages, hs⟩ := Option.bind_eq_some_iff.1 hs
  cases hs
  by_cases hamount : pageAmount = 0 ∨ KERNEL_HEAP_END - KERNEL_CODE_END < pageAmount
  · unfold Space.kmallocPages at hpages
    rw [if_pos hamount] at hpages
    cases hpages
    exact h
  obtain hzero | hlarge | hnone | ⟨hframes, hcovered⟩ := hv
  · exact absurd (Or.inl hzero) hamount
  · exact absurd (Or.inr hlarge) hamount
  · -- the first page fails, and there is none to give back
    unfold Space.kmallocPages at hpages
    rw [if_neg hamount] at hpages
    obtain ⟨⟨allocated, s₁⟩, hloop, hpages⟩ := Option.bind_eq_some_iff.1 hpages
    obtain ⟨⟨allocated', s₂⟩, hpage, hloop⟩ := Option.bind_eq_some_iff.1 hloop
    cases hpages
    obtain ⟨rfl, rfl, -⟩ | ⟨f, p, -, hf, hne, -, -⟩ := Space.allocateHeapPage_cases h.directory (h.low 0 (by decide))
      (fun hsome => by rw [hnone] at hsome; cases hsome) hpage
    · cases hloop
      exact h
    · rw [Pmm.takeFrames_succ.2 ⟨f, p, [], hf, hne, rfl, rfl⟩] at hnone
      cases hnone
  · obtain ⟨⟨fs, p⟩, hfs⟩ := Option.isSome_iff_exists.1 hframes
    have hheap : HeapPages t.space.currHeapEnd (pageAmount + 1) := by
      intro q hlo hhi
      obtain ⟨k, rfl⟩ := Nat.exists_eq_add_of_le hlo
      exact (hcovered k (by omega)).page
    have hamount' : 0 < pageAmount ∧ pageAmount ≤ 0x3E7FF := by
      have : KERNEL_HEAP_END - KERNEL_CODE_END = 0x3E7FF := rfl
      omega
    have hkmalloc := Space.kmalloc_eq h.directory hheap hfs
    rw [Space.kmallocPages_eq h.directory hamount'.1 hamount'.2 hheap hfs] at hpages
    cases hpages
    exact h.kmalloc (fun k hk _ => hcovered k hk) hkmalloc

end Coherent

/-! ### Runs -/

/-- Frame `x` holds the kernel's directory or that of a process. -/
def IsDirectory (t : System) (x : Nat) : Prop :=
  x = kernelDirectory ∨ ∃ pd ∈ t.pageDirectories, translate t.space.mem kernelDirectory pd = some x

/-- Every process has a directory, and all directories have the same entries and the same mappings for the kernel's
half. -/
structure KernelHalfAgrees (t : System) : Prop where
  directories : ∀ pd ∈ t.pageDirectories, ∃ x, translate t.space.mem kernelDirectory pd = some x
  entries : ∀ x y, IsDirectory t x → IsDirectory t y → ∀ i, 768 ≤ i → i < 1023 → t.space.mem x i = t.space.mem y i
  mappings : ∀ x y, IsDirectory t x → IsDirectory t y → ∀ q, 0xC0000 ≤ q → q < 0xFFC00 →
    translate t.space.mem x q = translate t.space.mem y q

/-- The pages of the heap that the step maps have their tables: there is no process, or the kernel's directory has the
entries; and what the step asks for is there. -/
def PagesHaveTables (t : System) : System.Event → Prop
  | .kmalloc n => HeapCovered t n
  | .kmallocPages pageAmount => Coherent.PagesCovered t pageAmount
  | .create c => ∃ d : Supply c t.space.pmm, Creates t c d
  | .switch _ => True

private theorem Coherent.agrees (h : Coherent t) : KernelHalfAgrees t := by
  have hkernel : ∀ x, IsDirectory t x → ∀ i, 768 ≤ i → i < 1023 →
      t.space.mem x i = t.space.mem kernelDirectory i := by
    rintro x (rfl | ⟨pd, hmem, hframe⟩) i hlo hhi
    · rfl
    · obtain ⟨y, hy⟩ := h.live pd hmem
      rw [hy.frame, Option.some.injEq] at hframe
      rw [← hframe]
      exact hy.half i hlo hhi
  have hentries : ∀ x y, IsDirectory t x → IsDirectory t y → ∀ i, 768 ≤ i → i < 1023 →
      t.space.mem x i = t.space.mem y i := by
    intro x y hx hy i hlo hhi
    rw [hkernel x hx i hlo hhi, hkernel y hy i hlo hhi]
  refine ⟨?_, hentries, ?_⟩
  · intro pd hmem
    obtain ⟨x, hx⟩ := h.live pd hmem
    exact ⟨x, hx.frame⟩
  · intro x y hx hy q hlo hhi
    exact translate_congr (hentries x y hx hy (q / 1024) (by omega) (by omega))

private theorem Coherent.step {e : System.Event} (h : Coherent t) (he : PagesHaveTables t e)
    (hs : System.step t e = some t') :
    Coherent t' := by
  cases e with
  | kmalloc n =>
    obtain ⟨⟨allocated, space⟩, hkmalloc, hs⟩ := Option.bind_eq_some_iff.1 hs
    cases hs
    exact h.kmalloc he hkmalloc
  | kmallocPages pageAmount => exact h.kmallocPages he hs
  | create c =>
    obtain ⟨d, hd⟩ := he
    exact h.create hd hs
  | switch pd => exact h.switch hs

private theorem boot_coherent {mbi : Pmm.MultibootInfo} {stale : Memory} (h : System.boot mbi stale = some t) :
    Coherent t := by
  have hsane := boot_sane h
  refine ⟨hsane.kernel, hsane.window, hsane.low, ?_, ?_⟩
  · obtain ⟨p, f, p', -, -, -, rfl⟩ := boot_eq h
    intro pd hmem
    cases hmem
  · obtain ⟨p, f, p', -, -, -, rfl⟩ := boot_eq h
    exact Or.inl ⟨rfl, rfl⟩

private theorem coherent_of_run {mbi : Pmm.MultibootInfo} {stale : Memory} {es : List System.Event}
    (hboot : System.boot mbi stale = some t) (hrun : Machine.Run System.step PagesHaveTables t es t') : Coherent t' :=
  hrun.inv (fun _ _ _ h he hs => h.step he hs) (boot_coherent hboot)

/-- As long as every page of the heap that is mapped has its table, all directories agree on the kernel's half. -/
theorem kernelHalf_agrees {mbi : Pmm.MultibootInfo} {stale : Memory} {es : List System.Event}
    (hboot : System.boot mbi stale = some t) (hrun : Machine.Run System.step PagesHaveTables t es t') :
    KernelHalfAgrees t' :=
  (coherent_of_run hboot hrun).agrees

/-! ### A run across a table -/

private theorem step_kmalloc {n : Nat} {allocated : Bool} (h : Space.kmalloc n t.space = some (allocated, s')) :
    System.step t (.kmalloc n) = some { t with space := s' } := by
  unfold System.step
  simp only [h, Option.bind_eq_bind, Option.bind_some]

private theorem step_create {result : Option Nat} (h : t.space.createProcessFromElf c = some (result, s')) :
    System.step t (.create c) = some { space := s', pageDirectories := t.pageDirectories ++ result.toList } := by
  unfold System.step
  simp only [h, Option.bind_eq_bind, Option.bind_some]

private theorem step_switch (hmem : pd ∈ t.pageDirectories) (h : t.space.loadPd pd = some s') :
    System.step t (.switch pd) = some { t with space := s' } := by
  unfold System.step
  simp only [hmem, if_true, h, Option.bind_eq_bind, Option.bind_some]

/-- On `bigMachine` the first process can be created, and the heap then ends in the middle of its first table. -/
private theorem exists_create_bigMachine : ∃ t t', System.boot Pmm.bigMachine (fun _ _ => .zero) = some t ∧
    PagesHaveTables t (.create smallCreation) ∧ System.step t (.create smallCreation) = some t' ∧
    t'.pageDirectories = [0xC1804] ∧ t'.space.currHeapEnd = 0xC1808 ∧
    (∀ i, 774 ≤ i → i < 1023 → ((t'.space.mem kernelDirectory i).present = true ↔ i = 774)) ∧
    t'.space.cr3 = kernelDirectory ∧ ∀ n < 0x10000, ∃ fs p', takeFrames n t'.space.pmm = some (fs, p') := by
  obtain ⟨t, hboot, d, hready, hframes⟩ := exists_ready_bigMachine
  obtain ⟨hnil, hend, hentries⟩ := boot_heap hboot
  have hprev : t.space.currentPageDirectory = Space.kernelPd := by
    obtain ⟨p, f, p', -, -, -, rfl⟩ := boot_eq hboot
    rfl
  have hheap : ∀ q, 0xC1801 ≤ q → q < 0xC1808 → HeapPage q ∧ q / 1024 = 774 := by
    intro q hlo hhi
    unfold HeapPage
    omega
  have hcreates : Creates t smallCreation d := by
    refine ⟨?_, ?_, hready.user, hready.stale, fun _ => ⟨rfl, rfl⟩⟩
    · intro k hk
      change k < 5 at hk
      exact ⟨(hheap _ (by omega) (by omega)).1, Or.inl hnil⟩
    · intro q hlo hhi
      change _ + 5 ≤ q at hlo
      change q < _ + 5 + 2 at hhi
      obtain ⟨hpage, hentry⟩ := hheap q (by omega) (by omega)
      refine ⟨hpage, Or.inl ?_⟩
      rw [hentry]
      exact (hentries 774 (by omega) (by omega)).2 rfl
  have hcreate := hready.createProcessFromElf_eq (show 0x8049000 ≠ 0 by decide)
  refine ⟨t, _, hboot, ⟨d, hcreates⟩, step_create hcreate, ?_, ?_, ?_, ?_, hframes⟩
  · show t.pageDirectories ++ [t.space.currHeapEnd + 3] = _
    rw [hnil, hend]
    rfl
  · show t.space.currHeapEnd + 5 + 2 = _
    rw [hend]
  · intro i hlo hhi
    show (d.loadMem t.space.mem t.space.currHeapEnd kernelDirectory i).present = true ↔ _
    rw [hready.loadMem_kernel, ← hentries i hlo hhi]
    by_cases hi : (t.space.mem kernelDirectory i).present = true
    · unfold Supply.heapMem
      rw [growMem_of_present hready.kernel hready.heapPages hi]
    · unfold Supply.heapMem
      rw [growMem_of_ne_entry hready.kernel hready.heapPages]
      intro q hqlo hqhi heq
      rw [d.heap_length] at hqhi
      change q < _ + 5 at hqhi
      rw [hentries i hlo hhi] at hi
      rw [(hheap q (by omega) (by omega)).2] at heq
      exact hi heq
  · show (translate (d.loadMem t.space.mem t.space.currHeapEnd) kernelDirectory
      t.space.currentPageDirectory).getD 0 = kernelDirectory
    rw [hprev, hready.loadMem_window.translate]
    rfl

/-- The kernel's directory gets an entry that the directory of the process does not have. -/
theorem exists_kernelHalf_differs : ¬ ∀ mbi stale t es t', System.boot mbi stale = some t →
    Machine.Run System.step (fun _ _ => True) t es t' → KernelHalfAgrees t' := by
  intro hall
  obtain ⟨t, t₁, hboot, hcovered, hcreate, hlive, hend, hentries, hcr3, hframes⟩ := exists_create_bigMachine
  have hcoherent := (boot_coherent hboot).step hcovered hcreate
  obtain ⟨x, hx⟩ := hcoherent.live 0xC1804 (by rw [hlive]; exact List.mem_singleton.2 rfl)
  -- the page behind the next table is the last of these
  obtain ⟨fs, p, hfs⟩ := hframes 1017 (by omega)
  have hlength := Pmm.takeFrames_length hfs
  have hheap : HeapPages t₁.space.currHeapEnd 1017 := by
    intro q hlo hhi
    unfold HeapPage
    omega
  have hheap' : HeapPages t₁.space.currHeapEnd fs.length := by
    rw [hlength]
    exact hheap
  have hdirectory : Directory t₁.space.mem t₁.space.cr3 := hcoherent.directory
  have hkmalloc := Space.kmalloc_eq hdirectory hheap hfs
  rw [hcr3] at hkmalloc hdirectory
  have hstep : System.step t₁ (.kmalloc 1017) = some
      { t₁ with
        space :=
          { t₁.space with
            mem := growMem t₁.space.mem kernelDirectory t₁.space.currHeapEnd fs
            pmm := p
            cr3 := kernelDirectory
            currHeapEnd := t₁.space.currHeapEnd + 1017 } } := step_kmalloc hkmalloc
  have hagrees := hall _ _ t _ _ hboot (.cons trivial hcreate (.single trivial hstep))
  have hframe : translate (growMem t₁.space.mem kernelDirectory t₁.space.currHeapEnd fs) kernelDirectory 0xC1804 =
      some x := translate_growMem_heap hdirectory hheap' hx.page (by rw [hend]; omega) hx.frame
  have hlive' : 0xC1804 ∈ t₁.pageDirectories := by
    rw [hlive]
    exact List.mem_singleton.2 rfl
  have hentry := hagrees.entries x kernelDirectory (Or.inr ⟨_, hlive', hframe⟩) (Or.inl rfl) 775 (by omega) (by omega)
  have hlast := translate_growMem hdirectory hheap' (List.getElem?_eq_getElem (show 1016 < fs.length by omega))
  rw [translate_eq_some, show (t₁.space.currHeapEnd + 1016) / 1024 = 775 by omega] at hlast
  have hhigh := hx.high
  have hother : growMem t₁.space.mem kernelDirectory t₁.space.currHeapEnd fs x = t₁.space.mem x := by
    apply growMem_of_ne hdirectory hheap' _ (by omega)
    unfold kernelDirectory
    omega
  have hnew := hlast.1
  rw [show growMem t₁.space.mem kernelDirectory t₁.space.currHeapEnd fs kernelDirectory 775 =
    t₁.space.mem kernelDirectory 775 by rw [← hx.half 775 (by omega) (by omega), ← hother]; exact hentry.symm] at hnew
  exact absurd ((hentries 775 (by omega) (by omega)).1 hnew) (by omega)

theorem kernelHalf_agrees_bigMachine : ∃ t t', System.boot Pmm.bigMachine (fun _ _ => .zero) = some t ∧
    Machine.Run System.step PagesHaveTables t [.create smallCreation, .switch 0xC1804, .kmalloc 1] t' ∧
    t'.pageDirectories = [0xC1804] ∧ KernelHalfAgrees t' := by
  obtain ⟨t, t₁, hboot, hcovered, hcreate, hlive, hend, hentries, hcr3, hframes⟩ := exists_create_bigMachine
  have hcoherent := (boot_coherent hboot).step hcovered hcreate
  have hmem : 0xC1804 ∈ t₁.pageDirectories := by
    rw [hlive]
    exact List.mem_singleton.2 rfl
  -- the switch
  obtain ⟨t₂, hswitch, hmem₂, hpmm₂, hlive₂, hend₂⟩ : ∃ t₂, System.step t₁ (.switch 0xC1804) = some t₂ ∧
      t₂.space.mem = t₁.space.mem ∧ t₂.space.pmm = t₁.space.pmm ∧ t₂.pageDirectories = t₁.pageDirectories ∧
      t₂.space.currHeapEnd = t₁.space.currHeapEnd := by
    exact ⟨_, step_switch hmem (Space.loadPd_eq hcoherent.sane.loaded (by decide)), rfl, rfl, rfl, rfl⟩
  have hcoherent₂ := hcoherent.switch hswitch
  -- a page of the heap
  obtain ⟨fs, p, hfs⟩ := hframes 1 (by omega)
  rw [← hpmm₂] at hfs
  have hheap : HeapPages t₂.space.currHeapEnd 1 := by
    intro q hlo hhi
    unfold HeapPage
    omega
  obtain ⟨t₃, hkmalloc, hlive₃⟩ : ∃ t₃, System.step t₂ (.kmalloc 1) = some t₃ ∧
      t₃.pageDirectories = t₂.pageDirectories :=
    ⟨_, step_kmalloc (Space.kmalloc_eq hcoherent₂.directory hheap hfs), rfl⟩
  have hpages : PagesHaveTables t₂ (.kmalloc 1) := by
    intro k hk _
    refine ⟨hheap _ (by omega) (by omega), Or.inr ?_⟩
    rw [hmem₂, show (t₂.space.currHeapEnd + k) / 1024 = 774 by omega]
    exact (hentries 774 (by omega) (by omega)).2 rfl
  have hrun : Machine.Run System.step PagesHaveTables t [.create smallCreation, .switch 0xC1804, .kmalloc 1] t₃ :=
    .cons hcovered hcreate (.cons trivial hswitch (.single hpages hkmalloc))
  exact ⟨t, t₃, hboot, hrun, by rw [hlive₃, hlive₂, hlive], kernelHalf_agrees hboot hrun⟩

end DBolOS.Paging
