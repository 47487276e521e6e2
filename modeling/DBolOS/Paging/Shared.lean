import DBolOS.Paging.Boot

/-!
# Directories with the kernel's entries

A process has the kernel's entries in its directory, on a page of the heap (`Holds`).  What a step leaves of the
kernel's directory, of the frames in use and of the kernel's tables is enough to keep this (`Extends`).
-/

namespace DBolOS.Paging

open Pmm (PmmInfo pmmAllocatePage takeFrames)

variable {s s' s'' : Space} {t t' : System} {mem : Memory} {pd x q : Nat} {c : Space.Creation}

/-! ### Directories of processes -/

/-- Page `pd` is the directory in frame `x`, which has the kernel's entries. -/
structure Holds (s : Space) (pd x : Nat) : Prop where
  page : HeapPage pd
  below : pd < s.currHeapEnd
  frame : translate s.mem kernelDirectory pd = some x
  used : Pmm.occupied s.pmm x = true
  high : 0x1800 ≤ x
  self : SelfMapped s.mem x
  half : ∀ i, 768 ≤ i → i < 1023 → s.mem x i = s.mem kernelDirectory i

private theorem Holds.directory (h : Holds s pd x) (hkernel : Directory s.mem kernelDirectory) : Directory s.mem x := by
  refine ⟨h.self, ?_, ?_⟩
  · intro i hlo hhi
    rw [h.half i (by omega) hhi]
    exact hkernel.tables i hlo hhi
  · have := h.high
    omega

private theorem Holds.window (h : Holds s pd x) (hwindow : Window s.mem kernelDirectory) : Window s.mem x := by
  have hentry := h.half 768 (by omega) (by omega)
  refine ⟨?_, ?_, hwindow.page, hwindow.frame⟩
  · rw [hentry]
    exact hwindow.present
  · rw [hentry]
    exact hwindow.address

/-- Equal entries map a page to the same frame. -/
theorem translate_congr {c d : Nat} (h : mem c (q / 1024) = mem d (q / 1024)) : translate mem c q = translate mem d q := by
  unfold translate PAGES_PER_TABLE
  rw [h]

/-! ### What a step keeps -/

/-- The kernel's directory, the frames in use and the entries of the heap pages are as they were. -/
structure Extends (s s' : Space) : Prop where
  kernel : s'.mem kernelDirectory = s.mem kernelDirectory
  window : s'.mem 0x1100 = s.mem 0x1100
  frames : ∀ x, 0x1800 ≤ x → Pmm.occupied s.pmm x = true → s'.mem x = s.mem x
  tables : ∀ q, HeapPage q → q < s.currHeapEnd →
    s'.mem (kernelTable (q / 1024)) (q % 1024) = s.mem (kernelTable (q / 1024)) (q % 1024)
  used : ∀ x, Pmm.occupied s.pmm x = true → Pmm.occupied s'.pmm x = true
  heapEnd : s.currHeapEnd ≤ s'.currHeapEnd

private theorem Extends.translate (h : Extends s s') (hkernel : Directory s.mem kernelDirectory) (hq : HeapPage q)
    (hlt : q < s.currHeapEnd) (hx : translate s.mem kernelDirectory q = some x) :
    translate s'.mem kernelDirectory q = some x := by
  rw [translate_eq_some] at hx ⊢
  obtain ⟨hdir, htable⟩ := hx
  rw [hkernel.tables _ hq.1 hq.2 hdir] at htable
  rw [h.kernel, hkernel.tables _ hq.1 hq.2 hdir, h.tables q hq hlt]
  exact ⟨hdir, htable⟩

theorem Extends.holds (h : Extends s s') (hkernel : Directory s.mem kernelDirectory) (hpd : Holds s pd x) :
    Holds s' pd x := by
  have hframe := h.frames x hpd.high hpd.used
  refine ⟨hpd.page, Nat.lt_of_lt_of_le hpd.below h.heapEnd, h.translate hkernel hpd.page hpd.below hpd.frame,
    h.used x hpd.used, hpd.high, hpd.self.congr (congrFun hframe 1023), ?_⟩
  rw [hframe, h.kernel]
  exact hpd.half

private theorem Extends.directory (h : Extends s s') (hkernel : Directory s.mem kernelDirectory) :
    Directory s'.mem kernelDirectory := by
  refine ⟨hkernel.toSelfMapped.congr (congrFun h.kernel 1023), ?_, hkernel.apart⟩
  rw [h.kernel]
  exact hkernel.tables

/-! ### The invariant -/

/-- The directory that is loaded is the kernel's or that of a process. -/
def Loaded (s : Space) (pageDirectories : List Nat) : Prop :=
  (s.cr3 = kernelDirectory ∧ s.currentPageDirectory = Space.kernelPd) ∨
    (s.currentPageDirectory ∈ pageDirectories ∧
      translate s.mem kernelDirectory s.currentPageDirectory = some s.cr3)

structure Coherent (t : System) : Prop where
  kernel : Directory t.space.mem kernelDirectory
  window : Window t.space.mem kernelDirectory
  low : ∀ f, f < 0x1800 → Pmm.occupied t.space.pmm f = true
  live : ∀ pd ∈ t.pageDirectories, ∃ x, Holds t.space pd x
  loaded : Loaded t.space t.pageDirectories

/-- The directory that is loaded, when it is not the kernel's. -/
private theorem Coherent.cr3 (h : Coherent t) : t.space.cr3 = kernelDirectory ∨ ∃ pd ∈ t.pageDirectories,
    Holds t.space pd t.space.cr3 := by
  obtain ⟨hkernel, -⟩ | ⟨hmem, hframe⟩ := h.loaded
  · left
    exact hkernel
  · right
    obtain ⟨x, hx⟩ := h.live _ hmem
    have heq := hx.frame
    rw [hframe, Option.some.injEq] at heq
    rw [heq]
    exact ⟨_, hmem, hx⟩

theorem Coherent.directory (h : Coherent t) : Directory t.space.mem t.space.cr3 := by
  obtain hkernel | ⟨pd, -, hpd⟩ := h.cr3
  · rw [hkernel]
    exact h.kernel
  · exact hpd.directory h.kernel

/-- The directory that is loaded has the kernel's entries. -/
theorem Coherent.half (h : Coherent t) {i : Nat} (hlo : 768 ≤ i) (hhi : i < 1023) :
    t.space.mem t.space.cr3 i = t.space.mem kernelDirectory i := by
  obtain hkernel | ⟨pd, -, hpd⟩ := h.cr3
  · rw [hkernel]
  · exact hpd.half i hlo hhi

theorem Coherent.sane (h : Coherent t) : Sane t.space := by
  have hprev : t.space.currentPageDirectory < 0x100000 := by
    obtain ⟨-, hprev⟩ | ⟨hmem, -⟩ := h.loaded
    · rw [hprev]
      decide
    · obtain ⟨x, hx⟩ := h.live _ hmem
      have := hx.page.2
      omega
  refine ⟨h.kernel, h.window, h.directory.toSelfMapped, ?_, ?_, hprev, h.low⟩
  · obtain hkernel | ⟨pd, -, hpd⟩ := h.cr3
    · rw [hkernel]
      exact h.window
    · exact hpd.window h.window
  · obtain hkernel | ⟨pd, -, hpd⟩ := h.cr3
    · rw [hkernel]
      exact h.low _ (by decide)
    · exact hpd.used

/-- A step that extends the space and loads the same directory keeps the invariant. -/
private theorem Coherent.of_extends (h : Coherent t) (he : Extends t.space s') (hcr3 : s'.cr3 = t.space.cr3)
    (hpd : s'.currentPageDirectory = t.space.currentPageDirectory) : Coherent { t with space := s' } := by
  refine ⟨he.directory h.kernel, h.window.congr (congrFun he.kernel 768) he.window, ?_, ?_, ?_⟩
  · intro f hf
    exact he.used f (h.low f hf)
  · intro pd hmem
    obtain ⟨x, hx⟩ := h.live pd hmem
    exact ⟨x, he.holds h.kernel hx⟩
  · show Loaded s' t.pageDirectories
    unfold Loaded
    rw [hcr3, hpd]
    obtain hkernel | ⟨hmem, hframe⟩ := h.loaded
    · left
      exact hkernel
    · right
      obtain ⟨x, hx⟩ := h.live _ hmem
      exact ⟨hmem, he.translate h.kernel hx.page hx.below hframe⟩

/-- While there is no process, the kernel's directory may get entries. -/
private theorem Coherent.alone (h : Coherent t) (hnil : t.pageDirectories = [])
    (hkernel : Directory s'.mem kernelDirectory)
    (hwindow : Window s'.mem kernelDirectory)
    (hused : ∀ f, Pmm.occupied t.space.pmm f = true → Pmm.occupied s'.pmm f = true)
    (hcr3 : s'.cr3 = t.space.cr3) (hpd : s'.currentPageDirectory = t.space.currentPageDirectory) :
    Coherent { t with space := s' } := by
  refine ⟨hkernel, hwindow, fun f hf => hused f (h.low f hf), ?_, ?_⟩
  · intro pd hmem
    rw [hnil] at hmem
    cases hmem
  · left
    rw [hcr3, hpd]
    obtain hloaded | ⟨hmem, -⟩ := h.loaded
    · exact hloaded
    · rw [hnil] at hmem
      cases hmem

private theorem Coherent.cr3_alone (h : Coherent t) (hnil : t.pageDirectories = []) :
    t.space.cr3 = kernelDirectory := by
  obtain hkernel | ⟨pd, hmem, -⟩ := h.cr3
  · exact hkernel
  · rw [hnil] at hmem
    cases hmem

/-! ### Growing the heap -/

/-- Page `q` of the heap has its table: no directory but the kernel's is in use, or the kernel's has the entry. -/
structure Covered (t : System) (q : Nat) : Prop where
  page : HeapPage q
  table : t.pageDirectories = [] ∨ (t.space.mem kernelDirectory (q / 1024)).present = true

private theorem Coherent.heapMapped {f : Nat} {p : PmmInfo} (h : Coherent t) (hv : Covered t t.space.currHeapEnd)
    (hf : pmmAllocatePage t.space.pmm = some (f, p)) (hne : f ≠ 0) :
    Coherent
      { t with
        space :=
          { t.space with
            mem := heapMapped t.space.mem t.space.cr3 t.space.currHeapEnd f
            pmm := p
            currHeapEnd := t.space.currHeapEnd + 1 } } := by
  have hdir := h.directory
  have hused : ∀ g, Pmm.occupied t.space.pmm g = true → Pmm.occupied p g = true := by
    intro g hg
    obtain ⟨hzero, -⟩ | ⟨-, hocc⟩ := Pmm.pmmAllocatePage_cases hf
    · exact absurd hzero hne
    · rw [hocc, hg, Bool.or_true]
  obtain hnil | hpresent := hv.table
  · have hcr3 := h.cr3_alone hnil
    apply h.alone hnil
    · rw [hcr3]
      exact h.kernel.heapMapped hv.page
    · rw [hcr3]
      apply h.window.congr
      · exact heapMapped_of_present h.kernel hv.page h.window.present
      · exact heapMapped_of_ne h.kernel hv.page (show 0x1100 ≠ 6 by decide) (Or.inl (by decide))
    · exact hused
    · rfl
    · rfl
  · obtain ⟨hlo, hhi⟩ := id hv.page
    -- the directory that is loaded has the entry, and stays as it is
    have hself : Paging.heapMapped t.space.mem t.space.cr3 t.space.currHeapEnd f t.space.cr3 =
        t.space.mem t.space.cr3 := by
      funext j
      by_cases hj : (t.space.mem t.space.cr3 j).present = true
      · exact heapMapped_of_present hdir hv.page hj
      · rw [heapMapped_self hdir hv.page, if_neg]
        rintro rfl
        rw [h.half (by omega) hhi] at hj
        exact hj hpresent
    have hother : ∀ g, g < 0x1100 + 774 ∨ 0x1500 ≤ g →
        Paging.heapMapped t.space.mem t.space.cr3 t.space.currHeapEnd f g = t.space.mem g := by
      intro g hg
      by_cases hcr3 : g = t.space.cr3
      · rw [hcr3]
        exact hself
      · exact heapMapped_of_ne hdir hv.page hcr3 hg
    refine h.of_extends ⟨hother _ (Or.inl (by decide)), hother _ (Or.inl (by decide)), ?_, ?_, hused, Nat.le_succ _⟩ rfl rfl
    · intro g hg _
      exact hother g (by omega)
    · intro q hq hlt
      have hpages : HeapPages t.space.currHeapEnd [f].length := by
        intro q' hlo' hhi'
        rw [List.length_singleton] at hhi'
        rw [show q' = t.space.currHeapEnd by omega]
        exact hv.page
      exact growMem_table hdir hpages hq (.inl hlt)

/-- The pages of the heap that `kmalloc` gets for `n` more. -/
def HeapCovered (t : System) (n : Nat) : Prop :=
  ∀ k < n, (takeFrames (k + 1) t.space.pmm).isSome = true → Covered t (t.space.currHeapEnd + k)

theorem Coherent.kmalloc {n : Nat} {allocated : Bool} (h : Coherent t) (hv : HeapCovered t n)
    (hs : Space.kmalloc n t.space = some (allocated, s')) : Coherent { t with space := s' } := by
  induction n generalizing t with
  | zero =>
    cases hs
    exact h
  | succ n ih =>
    obtain ⟨⟨allocated', s₁⟩, hpage, hs⟩ := Option.bind_eq_some_iff.1 hs
    dsimp only at hs
    have hzero := h.low 0 (by decide)
    obtain ⟨rfl, rfl, -⟩ | ⟨f, p, rfl, hf, hne, hheap, rfl⟩ :=
      Space.allocateHeapPage_cases h.directory hzero (fun hframe => (hv 0 (by omega) hframe).page) hpage
    · cases hs
      exact h
    · have hone : takeFrames 1 t.space.pmm = some ([f], p) := Pmm.takeFrames_succ.2 ⟨f, p, [], hf, hne, rfl, rfl⟩
      have hfirst : Covered t t.space.currHeapEnd := hv 0 (by omega) (by rw [hone]; rfl)
      rw [if_pos rfl] at hs
      have hnextCoherent := h.heapMapped hfirst hf hne
      have hrest := @ih ⟨{ t.space with
        mem := Paging.heapMapped t.space.mem t.space.cr3 t.space.currHeapEnd f
        pmm := p
        currHeapEnd := t.space.currHeapEnd + 1 }, t.pageDirectories⟩ hnextCoherent
      refine hrest ?_ hs
      intro k hk hframes
      obtain ⟨⟨fs, p'⟩, hfs⟩ := Option.isSome_iff_exists.1 hframes
      have hnext : Covered t (t.space.currHeapEnd + (k + 1)) := by
        apply hv (k + 1) (by omega)
        rw [Pmm.takeFrames_succ.2 ⟨f, p, fs, hf, hne, hfs, rfl⟩]
        rfl
      have hpages : t.space.currHeapEnd + 1 + k = t.space.currHeapEnd + (k + 1) := by omega
      show Covered _ (t.space.currHeapEnd + 1 + k)
      rw [hpages]
      refine ⟨hnext.page, ?_⟩
      obtain hnil | hpresent := hnext.table
      · left
        exact hnil
      · right
        show (Paging.heapMapped t.space.mem t.space.cr3 t.space.currHeapEnd f kernelDirectory _).present = true
        by_cases hcr3 : kernelDirectory = t.space.cr3
        · rw [hcr3, heapMapped_of_present h.directory hfirst.page]
          · rw [← hcr3]
            exact hpresent
          · rw [← hcr3]
            exact hpresent
        · rw [heapMapped_of_ne h.directory hfirst.page hcr3 (Or.inl (by decide))]
          exact hpresent

end DBolOS.Paging
