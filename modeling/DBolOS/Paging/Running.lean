import DBolOS.Paging.Rollback

/-!
# The address space of a running process

While the directory of a process is loaded its tables lie in frames that are not free, apart from the directory and from
the tables of the kernel (`Running`).  This is kept by mapping a range, by growing the heap, which is mapping a range
too, and by a range that is unmapped again.  What was mapped before stays mapped to the same frame where the range was
not mapped (`keeps_rangeMem`).
-/

namespace DBolOS.Paging

open Pmm (PmmInfo pmmAllocatePage takeFrames occupied)

variable {mem mem' mem'' : Memory} {s s' : Space} {c start tables v w n q i g j f : Nat} {onlyKernelMode : Bool}
  {p p' : PmmInfo} {fs : List Nat}

/-- The frame can be a table of the user's half. -/
def UserTable (s : Space) (t : Nat) : Prop := occupied s.pmm t = true ∧ 0x1800 ≤ t ∧ t ≠ s.cr3

/-- The directory that is loaded maps itself and the kernel, and its tables lie in frames of their own. -/
structure Running (s : Space) : Prop extends Directory s.mem s.cr3 where
  low : ∀ f, f < 0x1800 → occupied s.pmm f = true
  used : occupied s.pmm s.cr3 = true
  user : ∀ j, j < 768 → (s.mem s.cr3 j).present = true → UserTable s (s.mem s.cr3 j).address
  kernel : ∀ j, 768 ≤ j → j < 1023 → (s.mem s.cr3 j).present = true →
    0x1100 ≤ (s.mem s.cr3 j).address ∧ (s.mem s.cr3 j).address < 0x1500

theorem Running.others (h : Running s) (hi : i < 1023) (hpresent : (s.mem s.cr3 i).present = true) :
    (s.mem s.cr3 i).address ≠ s.cr3 := by
  by_cases hlow : i < 768
  · exact (h.user i hlow hpresent).2.2
  · have hkernel := h.kernel i (by omega) hi hpresent
    have hapart := h.apart
    omega

theorem Running.zero (h : Running s) : occupied s.pmm 0 = true := h.low 0 (by decide)

/-- What a space has to share with a running one: new entries of the directory are tables of the user or the kernel's. -/
private theorem Running.transfer (h : Running s) (hcr3 : s'.cr3 = s.cr3) (hself : SelfMapped s'.mem s.cr3)
    (hentry : ∀ j, j < 1023 → (s'.mem s.cr3 j).present = true →
      ((s.mem s.cr3 j).present = true ∧ (s'.mem s.cr3 j).address = (s.mem s.cr3 j).address) ∨
      (j < 768 ∧ UserTable s' (s'.mem s.cr3 j).address) ∨ (768 ≤ j ∧ (s'.mem s.cr3 j).address = kernelTable j))
    (hocc : ∀ f, occupied s.pmm f = true → occupied s'.pmm f = true) : Running s' := by
  refine ⟨⟨?_, ?_, ?_⟩, fun f hf => hocc f (h.low f hf), ?_, ?_, ?_⟩
  · rw [hcr3]
    exact hself
  · intro i hlo hhi hpresent
    rw [hcr3] at hpresent ⊢
    obtain ⟨hold, haddress⟩ | ⟨hlow, -⟩ | ⟨-, haddress⟩ := hentry i hhi hpresent
    · rw [haddress]
      exact h.tables i hlo hhi hold
    · omega
    · exact haddress
  · rw [hcr3]
    exact h.apart
  · rw [hcr3]
    exact hocc _ h.used
  · intro j hj hpresent
    rw [hcr3] at hpresent ⊢
    obtain ⟨hold, haddress⟩ | ⟨-, htable⟩ | ⟨hlow, -⟩ := hentry j (by omega) hpresent
    · obtain ⟨hused, hlow, hne⟩ := h.user j hj hold
      rw [haddress]
      exact ⟨hocc _ hused, hlow, by rw [hcr3]; exact hne⟩
    · exact htable
    · omega
  · intro j hlo hhi hpresent
    rw [hcr3] at hpresent ⊢
    obtain ⟨hold, haddress⟩ | ⟨hlow, -⟩ | ⟨-, haddress⟩ := hentry j hhi hpresent
    · rw [haddress]
      exact h.kernel j hlo hhi hold
    · omega
    · rw [haddress]
      unfold kernelTable
      omega

/-! ### Tables of a range -/

private theorem tableOf_kernel (hlo : 0xC0000 ≤ q) (hhi : q < 0x100000)
    (habsent : ¬ (mem c (q / 1024)).present = true) :
    tableOf mem c tables q = kernelTable (q / 1024) := by
  unfold tableOf tableFor
  rw [if_neg habsent]
  unfold Space.newTable
  dsimp only
  rw [if_pos (show RELOCATION_OFFSET / PAGE_SIZE ≤ q from hlo)]
  unfold bits20 kernelTable KERNEL_PAGE_TABLES_PHYS_ADDR PAGES_PER_TABLE PAGE_SIZE
  omega

theorem tableOf_user (hq : q < 0xC0000) (habsent : ¬ (mem c (q / 1024)).present = true) :
    tableOf mem c tables q = bits20 (tables / PAGE_SIZE) := by
  have hlower : ¬ RELOCATION_OFFSET / PAGE_SIZE ≤ q := by
    show ¬ 0xC0000 ≤ q
    omega
  unfold tableOf tableFor
  rw [if_neg habsent]
  unfold Space.newTable
  dsimp only
  rw [if_neg hlower]

/-- The range ends below the recursive entry, and the table that is passed can be one of the user's half if it is
needed. -/
structure Fitting (s : Space) (tables v n : Nat) : Prop where
  pages : v + n ≤ 0xFFC00
  table : ∀ q, v ≤ q → q < v + n → q < 0xC0000 → ¬ (s.mem s.cr3 (q / 1024)).present = true →
    UserTable s (bits20 (tables / PAGE_SIZE))

theorem Fitting.mono (h : Fitting s tables v n) (hi : i ≤ n) : Fitting s tables v i :=
  ⟨by have := h.pages; omega, fun q hlo hhi => h.table q hlo (by omega)⟩

/-- Where the tables are there, any table can be passed. -/
theorem fitting_of_present (hpages : v + n ≤ 0xFFC00)
    (hpresent : ∀ q, v ≤ q → q < v + n → (s.mem s.cr3 (q / 1024)).present = true) : Fitting s tables v n :=
  ⟨hpages, fun q hlo hhi _ habsent => absurd (hpresent q hlo hhi) habsent⟩

/-- The tables of the user's half lie above those of the kernel. -/
theorem Running.tableOf_high (h : Running s) (hfit : Fitting s tables v n) (hlo : v ≤ q) (hhi : q < v + n)
    (hq : q < 0xC0000) : UserTable s (tableOf s.mem s.cr3 tables q) := by
  by_cases hpresent : (s.mem s.cr3 (q / 1024)).present = true
  · rw [tableOf_of_present hpresent]
    exact h.user _ (by omega) hpresent
  · rw [tableOf_user hq hpresent]
    exact hfit.table q hlo hhi hq hpresent

private theorem Running.tableOf_ne (h : Running s) (hfit : Fitting s tables v n) (hlo : v ≤ q) (hhi : q < v + n) :
    tableOf s.mem s.cr3 tables q ≠ s.cr3 := by
  have hpages := hfit.pages
  by_cases hq : q < 0xC0000
  · exact (h.tableOf_high hfit hlo hhi hq).2.2
  · by_cases hpresent : (s.mem s.cr3 (q / 1024)).present = true
    · rw [tableOf_of_present hpresent]
      exact h.others (by omega) hpresent
    · rw [tableOf_kernel (by omega) (by omega) hpresent]
      have hapart := h.apart
      unfold kernelTable
      omega

theorem Running.ordinary (h : Running s) (hfit : Fitting s tables v n) : Ordinary s v n tables :=
  ⟨⟨h.toSelfMapped, hfit.pages, fun _ hlo hhi => h.tableOf_ne hfit hlo hhi⟩, fun _ hi hpresent => h.others hi hpresent⟩

/-! ### Mapping a range -/

/-- An entry of the directory behind the loop is an old one or a new one. -/
theorem rangeMem_entry (h : Plain mem c tables v fs.length)
    (hpresent : (rangeMem mem c tables onlyKernelMode v fs c j).present = true) :
    ((mem c j).present = true ∧ (rangeMem mem c tables onlyKernelMode v fs c j).address = (mem c j).address) ∨
      ¬ (mem c j).present = true ∧ ∃ q, v ≤ q ∧ q < v + fs.length ∧ q / 1024 = j ∧
        (rangeMem mem c tables onlyKernelMode v fs c j).address = tableOf mem c tables q := by
  obtain ⟨hiff, hkept, htable⟩ := @rangeMem_directory mem c tables v j onlyKernelMode fs h
  by_cases hold : (mem c j).present = true
  · exact .inl ⟨hold, hkept hold⟩
  · obtain ⟨q, hlo, hhi, rfl⟩ := (hiff.1 hpresent).resolve_left hold
    refine .inr ⟨hold, q, hlo, hhi, rfl, ?_⟩
    rw [← htable q, tableOf_of_present hpresent]

theorem occupied_of_takeFrames (hfs : takeFrames n s.pmm = some (fs, p)) (hf : occupied s.pmm f = true) :
    occupied p f = true := by
  rw [Pmm.occupied_takeFrames hfs, hf, Bool.or_true]

theorem occupied_of_mem (hfs : takeFrames n s.pmm = some (fs, p)) (hf : f ∈ fs) : occupied p f = true := by
  rw [Pmm.occupied_takeFrames hfs, decide_eq_true hf, Bool.true_or]

private theorem UserTable.taken {t : Nat} (h : UserTable s t) (hfs : takeFrames n s.pmm = some (fs, p))
    (mem : Memory) (e : Nat) :
    UserTable { s with mem := mem, pmm := p, currHeapEnd := e } t :=
  ⟨occupied_of_takeFrames hfs h.1, h.2⟩

/-- A range is mapped. -/
theorem Running.range (h : Running s) (hfit : Fitting s tables v fs.length)
    (hfs : takeFrames n s.pmm = some (fs, p)) (onlyKernelMode : Bool) (e : Nat) :
    Running { s with mem := rangeMem s.mem s.cr3 tables onlyKernelMode v fs, pmm := p, currHeapEnd := e } := by
  have hplain := (h.ordinary hfit).toPlain
  refine h.transfer rfl (rangeMem_self hplain) ?_ fun f => occupied_of_takeFrames hfs
  intro j hj hpresent
  obtain hold | ⟨habsent, q, hlo, hhi, rfl, haddress⟩ := rangeMem_entry hplain hpresent
  · exact .inl hold
  · right
    by_cases hq : q < 0xC0000
    · refine .inl ⟨by omega, ?_⟩
      show UserTable _ (rangeMem s.mem s.cr3 tables onlyKernelMode v fs s.cr3 (q / 1024)).address
      rw [haddress]
      exact (h.tableOf_high hfit hlo hhi hq).taken hfs _ _
    · refine .inr ⟨by omega, ?_⟩
      show (rangeMem s.mem s.cr3 tables onlyKernelMode v fs s.cr3 (q / 1024)).address = _
      rw [haddress, tableOf_kernel (by omega) (by omega) habsent]

/-! ### The heap -/

/-- Growing the heap is mapping a range for the kernel. -/
theorem growMem_eq (mem : Memory) (c v : Nat) (fs : List Nat) : growMem mem c v fs = rangeMem mem c 0 true v fs := by
  induction fs generalizing mem v with
  | nil => rfl
  | cons f fs ih => exact ih _ _

theorem HeapPages.fitting (h : HeapPages v n) (hn : 0 < n) : Fitting s tables v n := by
  have hhigh : ∀ q, v ≤ q → q < v + n → 774 * 1024 ≤ q ∧ q < 0xFFC00 := by
    intro q hlo hhi
    have := h q hlo hhi
    unfold HeapPage at this
    omega
  refine ⟨?_, ?_⟩
  · have := hhigh (v + n - 1) (by omega) (by omega)
    omega
  · intro q hlo hhi hq
    have := hhigh q hlo hhi
    omega

/-- The space after the heap grew by the frames `fs`. -/
def Space.withHeap (s : Space) (fs : List Nat) (p : PmmInfo) : Space :=
  { s with mem := growMem s.mem s.cr3 s.currHeapEnd fs, pmm := p, currHeapEnd := s.currHeapEnd + fs.length }

/-- The space after the pages from `v` on were mapped to the frames `fs` for the user. -/
def Space.withRange (s : Space) (tables v : Nat) (fs : List Nat) (p : PmmInfo) : Space :=
  { s with mem := rangeMem s.mem s.cr3 tables false v fs, pmm := p }

@[simp] theorem Space.withHeap_cr3 (s : Space) (fs : List Nat) (p : PmmInfo) : (s.withHeap fs p).cr3 = s.cr3 := rfl

@[simp] theorem Space.withHeap_pmm (s : Space) (fs : List Nat) (p : PmmInfo) : (s.withHeap fs p).pmm = p := rfl

@[simp] theorem Space.withHeap_currHeapEnd (s : Space) (fs : List Nat) (p : PmmInfo) :
    (s.withHeap fs p).currHeapEnd = s.currHeapEnd + fs.length := rfl

@[simp] theorem Space.withRange_cr3 (s : Space) (tables v : Nat) (fs : List Nat) (p : PmmInfo) :
    (s.withRange tables v fs p).cr3 = s.cr3 := rfl

@[simp] theorem Space.withRange_pmm (s : Space) (tables v : Nat) (fs : List Nat) (p : PmmInfo) :
    (s.withRange tables v fs p).pmm = p := rfl

@[simp] theorem Space.withRange_currHeapEnd (s : Space) (tables v : Nat) (fs : List Nat) (p : PmmInfo) :
    (s.withRange tables v fs p).currHeapEnd = s.currHeapEnd := rfl

theorem Running.withHeap (h : Running s) (hv : HeapPages s.currHeapEnd fs.length) (hn : 0 < fs.length)
    (hfs : takeFrames n s.pmm = some (fs, p)) : Running (s.withHeap fs p) := by
  unfold Space.withHeap
  rw [growMem_eq]
  exact h.range (hv.fitting hn) hfs true _

theorem Running.withRange (h : Running s) (hfit : Fitting s tables v fs.length)
    (hfs : takeFrames n s.pmm = some (fs, p)) : Running (s.withRange tables v fs p) := h.range hfit hfs false _

theorem present_withHeap (h : Running s) (hv : HeapPages s.currHeapEnd fs.length)
    (hj : (s.mem s.cr3 j).present = true) : ((s.withHeap fs p).mem s.cr3 j).present = true := by
  show (growMem s.mem s.cr3 s.currHeapEnd fs s.cr3 j).present = true
  rw [growMem_of_present h.toDirectory hv hj]
  exact hj

/-- Behind the range its tables are there. -/
theorem present_withRange (h : Running s) (hfit : Fitting s tables v fs.length) (hlo : v ≤ q) (hhi : q < v + fs.length) :
    ((s.withRange tables v fs p).mem s.cr3 (q / 1024)).present = true :=
  (rangeMem_directory (h.ordinary hfit).toPlain).1.2 (.inr ⟨q, hlo, hhi, rfl⟩)

theorem present_withRange_of_present (h : Running s) (hfit : Fitting s tables v fs.length)
    (hj : (s.mem s.cr3 j).present = true) : ((s.withRange tables v fs p).mem s.cr3 j).present = true :=
  (rangeMem_directory (h.ordinary hfit).toPlain).1.2 (.inl hj)

/-! ### Unmapping a range again -/

/-- The frames run out, and the range is unmapped again. -/
theorem Running.restored (h : Running s) (hrestorable : Restorable s start tables fs)
    (hcleared : Cleared (rangeMem s.mem s.cr3 tables onlyKernelMode start fs) s.cr3 tables start fs.length)
    (hocc : ∀ f, occupied p' f = occupied s.pmm f) :
    Running { s with
      mem := clearMem (rangeMem s.mem s.cr3 tables onlyKernelMode start fs) s.cr3 tables start fs.length
      pmm := p' } := by
  have hdir := clearMem_directory hcleared
  refine h.transfer rfl hcleared.selfMapped ?_ fun f hf => (hocc f).trans hf
  intro j hj hpresent
  left
  dsimp only at hpresent ⊢
  rw [hdir] at hpresent ⊢
  obtain hold | ⟨habsent, q, hlo, hhi, rfl, -⟩ := rangeMem_entry hrestorable.toPlain hpresent
  · exact hold
  · exact absurd (hrestorable.present _ ⟨q, hlo, hhi, rfl⟩) habsent

/-! ### What stays mapped -/

/-- An entry that is there stays, with its frame and with the permission of the user. -/
def EntryKept (e e' : PageEntry) : Prop :=
  e.present = true → e'.present = true ∧ e'.address = e.address ∧ (e.userSupervisor = true → e'.userSupervisor = true)

/-- The entries of the directory in frame `c` and of its tables stay. -/
structure Keeps (mem mem' : Memory) (c : Nat) : Prop where
  directory : ∀ j, EntryKept (mem c j) (mem' c j)
  tables : ∀ i, i < 1023 → (mem c i).present = true →
    ∀ j, EntryKept (mem (mem c i).address j) (mem' (mem c i).address j)

private theorem EntryKept.refl (e : PageEntry) : EntryKept e e := fun h => ⟨h, rfl, id⟩

private theorem EntryKept.trans {e e' e'' : PageEntry} (h : EntryKept e e') (h' : EntryKept e' e'') :
    EntryKept e e'' := by
  intro hpresent
  obtain ⟨hp, ha, hu⟩ := h hpresent
  obtain ⟨hp', ha', hu'⟩ := h' hp
  exact ⟨hp', ha'.trans ha, fun huser => hu' (hu huser)⟩

theorem Keeps.refl (mem : Memory) (c : Nat) : Keeps mem mem c :=
  ⟨fun _ => EntryKept.refl _, fun _ _ _ _ => EntryKept.refl _⟩

theorem Keeps.trans (h : Keeps mem mem' c) (h' : Keeps mem' mem'' c) : Keeps mem mem'' c := by
  refine ⟨fun j => (h.directory j).trans (h'.directory j), fun i hi hpresent j => ?_⟩
  obtain ⟨hpresent', haddress, -⟩ := h.directory i hpresent
  have htable := h'.tables i hi hpresent' j
  rw [haddress] at htable
  exact (h.tables i hi hpresent j).trans htable

/-- The page is mapped to frame `f`, and the user may access it. -/
structure UserMapped (s : Space) (q f : Nat) : Prop where
  translation : translate s.mem s.cr3 q = some f
  directory : (s.mem s.cr3 (q / 1024)).userSupervisor = true
  table : (s.mem (s.mem s.cr3 (q / 1024)).address (q % 1024)).userSupervisor = true

theorem Keeps.translate (h : Keeps mem mem' c) (hself : SelfMapped mem c) (hw : w < 0x100000)
    (hf : translate mem c w = some f) : translate mem' c w = some f := by
  obtain ⟨hdir, htable, haddress⟩ := translate_eq_some.1 hf
  obtain ⟨hdir', hsame, -⟩ := h.directory _ hdir
  rw [translate_eq_some, hsame]
  by_cases hlast : w / 1024 < 1023
  · obtain ⟨htable', hframe, -⟩ := h.tables _ hlast hdir _ htable
    exact ⟨hdir', htable', hframe.trans haddress⟩
  · -- a page of the recursive entry
    rw [show w / 1024 = 1023 by omega, hself.self] at htable haddress ⊢
    obtain ⟨htable', hframe, -⟩ := h.directory _ htable
    exact ⟨(h.directory _ hself.present).1, htable', hframe.trans haddress⟩

theorem Keeps.userMapped (h : Keeps s.mem s'.mem s.cr3) (hself : SelfMapped s.mem s.cr3) (hcr3 : s'.cr3 = s.cr3)
    (hq : q < 0xFFC00) (huser : UserMapped s q f) : UserMapped s' q f := by
  obtain ⟨hdir, htable, haddress⟩ := translate_eq_some.1 huser.translation
  obtain ⟨-, hsame, hdirUser⟩ := h.directory _ hdir
  obtain ⟨-, -, htableUser⟩ := h.tables _ (by omega) hdir _ htable
  refine ⟨?_, ?_, ?_⟩
  · rw [hcr3]
    exact h.translate hself (by omega) huser.translation
  · rw [hcr3]
    exact hdirUser huser.directory
  · rw [hcr3, hsame]
    exact htableUser huser.table

/-- The permission of the user in the directory stays, and is given for a range of the user. -/
theorem rangeMem_user (h : Plain mem c tables v fs.length)
    (hj : ((mem c j).present = true ∧ (mem c j).userSupervisor = true) ∨ (Touched v fs.length j ∧ onlyKernelMode = false)) :
    (rangeMem mem c tables onlyKernelMode v fs c j).userSupervisor = true := by
  induction fs generalizing mem v with
  | nil =>
    obtain ⟨-, huser⟩ | ⟨htouched, -⟩ := hj
    · exact huser
    · exact absurd htouched not_touched_zero
  | cons f fs ih =>
    have hpresent := (@pageMem_directory mem c tables v f onlyKernelMode h.head j).1
    apply ih (h.next onlyKernelMode f)
    by_cases hv : v / 1024 = j
    · -- the entry of this page
      left
      rw [decide_eq_true hv, Bool.true_or] at hpresent
      refine ⟨hpresent, ?_⟩
      unfold pageMem mapInto
      rw [if_pos ⟨rfl, hv.symm⟩]
      show ((tableFor mem c v tables).userSupervisor || !onlyKernelMode) = true
      obtain ⟨hold, huser⟩ | ⟨-, rfl⟩ := hj
      · rw [← hv] at hold huser
        rw [tableFor_of_present hold, huser]
        rfl
      · rw [Bool.not_false, Bool.or_true]
    · obtain ⟨hold, huser⟩ | ⟨htouched, rfl⟩ := hj
      · left
        refine ⟨by rw [hpresent, hold, Bool.or_true], ?_⟩
        unfold pageMem mapInto
        rw [if_neg fun hand => hv hand.2.symm, if_neg fun hand => h.head hand.1.symm]
        exact huser
      · right
        exact ⟨(touched_succ.1 htouched).resolve_left hv, rfl⟩

/-- No page is mapped through the slot that page `q` gets. -/
def Unmapped (s : Space) (tables q : Nat) : Prop :=
  ∀ i, i < 1023 → (s.mem s.cr3 i).present = true → (s.mem s.cr3 i).address = tableOf s.mem s.cr3 tables q →
    (s.mem (tableOf s.mem s.cr3 tables q) (q % 1024)).present = false

theorem unmapped_of_none (hpresent : (s.mem s.cr3 (q / 1024)).present = true)
    (hnone : translate s.mem s.cr3 q = none) : Unmapped s tables q := by
  rintro - - - -
  rw [tableOf_of_present hpresent]
  unfold translate PAGES_PER_TABLE at hnone
  dsimp only at hnone
  rw [if_pos hpresent] at hnone
  by_contra htable
  rw [if_pos (Bool.eq_true_of_not_eq_false htable)] at hnone
  cases hnone

/-- Mapping a range that is not mapped keeps what is. -/
theorem keeps_rangeMem (h : Ordinary s v fs.length tables)
    (hunmapped : ∀ q, v ≤ q → q < v + fs.length → Unmapped s tables q) :
    Keeps s.mem (rangeMem s.mem s.cr3 tables onlyKernelMode v fs) s.cr3 := by
  refine ⟨fun j hpresent => ?_, fun i hi hpresent j htable => ?_⟩
  · obtain ⟨hiff, hkept, -⟩ := @rangeMem_directory s.mem s.cr3 tables v j onlyKernelMode fs h.toPlain
    exact ⟨hiff.2 (.inl hpresent), hkept hpresent, fun huser => rangeMem_user h.toPlain (.inl ⟨hpresent, huser⟩)⟩
  · rw [rangeMem_of_ne h.toPlain (h.others i hi hpresent)]
    · exact ⟨htable, rfl, id⟩
    · intro q hlo hhi hslot
      unfold slot at hslot
      rw [Prod.mk.injEq] at hslot
      have hfalse := hunmapped q hlo hhi i hi hpresent hslot.1.symm
      rw [hslot.1, hslot.2, htable] at hfalse
      cases hfalse

/-- Unmapping it again does too. -/
theorem Restorable.keeps (h : Restorable s start tables fs)
    (hcleared : Cleared (rangeMem s.mem s.cr3 tables onlyKernelMode start fs) s.cr3 tables start fs.length) :
    Keeps s.mem (clearMem (rangeMem s.mem s.cr3 tables onlyKernelMode start fs) s.cr3 tables start fs.length) s.cr3 := by
  have hrange := @keeps_rangeMem s tables start onlyKernelMode fs h.toOrdinary fun q hlo hhi =>
    unmapped_of_none (h.present _ ⟨q, hlo, hhi, rfl⟩) (h.unmapped q hlo hhi)
  refine ⟨fun j => ?_, fun i hi hpresent j htable => ?_⟩
  · rw [clearMem_directory hcleared]
    exact hrange.directory j
  · have hkept := hrange.tables i hi hpresent j htable
    rw [clearMem_of_ne hcleared]
    · exact hkept
    · intro q hlo hhi hslot
      unfold slot at hslot
      rw [(@rangeMem_directory s.mem s.cr3 tables start 0 onlyKernelMode fs h.toPlain).2.2, Prod.mk.injEq] at hslot
      have hfalse := unmapped_of_none (h.present _ ⟨q, hlo, hhi, rfl⟩) (h.unmapped q hlo hhi) i hi hpresent hslot.1.symm
      rw [hslot.1, hslot.2, htable] at hfalse
      cases hfalse

end DBolOS.Paging
