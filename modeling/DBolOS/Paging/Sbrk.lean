import DBolOS.Paging.Recursive
import DBolOS.Paging.Running

/-!
# Growing a process

`_sbrk`, while the directory of the process is loaded.  The break is a 32-bit address, `increment` an `int`, and the
counts of pages and tables wrap as the source has them.  The second argument of a call is whether its `kfree` gives the
last page of the heap back.
-/

namespace DBolOS.Paging

open Pmm (PmmInfo pmmAllocatePage takeFrames occupied add32 sub32)

/-- A process while its directory is loaded. -/
structure Process where
  space : Space
  processBreak : Nat

/-- `(void*)-1`. -/
def minusOne : Nat := 0xFFFFFFFF

/-- An address and an `int`. -/
def addInt (a : Nat) (increment : Int) : Nat := ((a + increment) % 2 ^ 32).toNat

/-- `ALIGN_UP`, for powers of two. -/
def alignUp (size alignment : Nat) : Nat := add32 size (alignment - 1) / alignment * alignment

/-- `get_page_table`. -/
def getPageTable (a : Nat) : Nat := PAGE_TABLES_ADDR + a / PAGE_SIZE / PAGES_PER_TABLE * PAGE_SIZE

structure SbrkCall where
  increment : Int
  lastPage : Bool

namespace Process

variable (p : Process)

def currentPageEnd : Nat := alignUp p.processBreak PAGE_SIZE

def pageTablesBoundary : Nat := alignUp p.processBreak (PAGES_PER_TABLE * PAGE_SIZE)

def newBreak (increment : Int) : Nat := addInt p.processBreak increment

/-- `amount_page_tables_to_allocate`, where the boundary is passed. -/
def pageTables (increment : Int) : Nat :=
  sub32 (p.newBreak increment) p.pageTablesBoundary / (PAGES_PER_TABLE * PAGE_SIZE) + 1

/-- `amount_pages_to_allocate_past_boundary`, where the boundary is passed. -/
def pastBoundary (increment : Int) : Nat := (p.pageTables increment - 1) * PAGES_PER_TABLE + 1

/-- The pages past the boundary with their new tables: whether there were frames for all of it. -/
def growPast (increment : Int) (lastPage : Bool) : Option (Bool × Space) := do
  let (newPageTables, s) ← p.space.kmallocPages (p.pageTables increment)
  match newPageTables with
  | none => some (false, s)
  | some page => do
    let pageTablesPhysAddr ← s.getPhysicalAddress (page * PAGE_SIZE)
    let (allocated, s) ← s.allocateMultiplePages (p.pageTablesBoundary / PAGE_SIZE) (p.pastBoundary increment) false
      pageTablesPhysAddr
    if allocated then some (true, s)
    else do
      let s ← s.kfree lastPage
      some (false, s)

/-- The loop that frees the tables again.  `i * PAGE_SIZE` counts entries of a table there: from the second on what is
freed is no block of the heap. -/
def kfreeTables (lastPage : Bool) : Nat → Space → Option Space
  | 0, s => some s
  | 1, s => s.kfree lastPage
  | _ + 2, _ => none

/-- The pages before the boundary, after `past` pages were allocated with `tables` new tables. -/
def growBefore (increment : Int) (lastPage : Bool) (tables past : Nat) (s : Space) : Option (Nat × Process) := do
  let amount := sub32 (sub32 (p.newBreak increment) p.currentPageEnd / PAGE_SIZE) past
  let pageTablePhysAddr ← s.getPhysicalAddress (getPageTable p.currentPageEnd)
  let (allocated, s) ← s.allocateMultiplePages (p.currentPageEnd / PAGE_SIZE) amount false pageTablePhysAddr
  if allocated then some (p.processBreak, ⟨s, p.newBreak increment⟩)
  else do
    let s ← kfreeTables lastPage tables s
    some (minusOne, { p with space := s })

/-- The value returned, and the process afterwards. -/
def sbrk (c : SbrkCall) : Option (Nat × Process) := do
  let phys ← p.space.getPhysicalAddress p.processBreak
  if phys = 0 then some (minusOne, p)
  else if p.currentPageEnd < p.newBreak c.increment then
    if p.pageTablesBoundary < p.newBreak c.increment then do
      let (grown, s) ← p.growPast c.increment c.lastPage
      if grown then p.growBefore c.increment c.lastPage (p.pageTables c.increment) (p.pastBoundary c.increment) s
      else some (minusOne, { p with space := s })
    else p.growBefore c.increment c.lastPage 0 0 p.space
  else some (p.processBreak, { p with processBreak := p.newBreak c.increment })

def step (c : SbrkCall) : Option Process := (p.sbrk c).map Prod.snd

/-! ### Addresses -/

variable {p : Process} {increment : Int} {c : SbrkCall}

/-- The break lies below the recursive tables, and so does the new one. -/
structure Moves (p : Process) (increment : Int) : Prop where
  old : p.processBreak < 0xFFC00000
  nonneg : 0 ≤ p.processBreak + increment
  top : p.processBreak + increment < 0xFFC00000

theorem Moves.newBreak_eq (h : Moves p increment) : (p.newBreak increment : Int) = p.processBreak + increment := by
  have hnonneg := h.nonneg
  have htop := h.top
  unfold newBreak addInt
  omega

theorem currentPageEnd_eq (h : p.processBreak < 0xFFC00000) :
    p.currentPageEnd = (p.processBreak + 0xFFF) / 0x1000 * 0x1000 := by
  unfold currentPageEnd alignUp add32 PAGE_SIZE
  rw [Nat.mod_eq_of_lt (by omega)]

theorem pageTablesBoundary_eq (h : p.processBreak < 0xFFC00000) :
    p.pageTablesBoundary = (p.processBreak + 0x3FFFFF) / 0x400000 * 0x400000 := by
  unfold pageTablesBoundary alignUp add32 PAGES_PER_TABLE PAGE_SIZE
  rw [Nat.mod_eq_of_lt (by omega)]

/-- The pages of the growth behind the page end. -/
def growth (p : Process) (increment : Int) : Nat := (p.newBreak increment - p.currentPageEnd) / PAGE_SIZE

/-- The break's page is not mapped, or what it is mapped to has address `0`. -/
def Refused (p : Process) : Prop := p.space.getPhysicalAddress p.processBreak = some 0

private theorem sub32_eq {a b : Nat} (hle : b ≤ a) (ha : a < 2 ^ 32) : sub32 a b = a - b := by
  unfold sub32
  rw [show a + 2 ^ 32 - b = a - b + 2 ^ 32 by omega, Nat.add_mod_right, Nat.mod_eq_of_lt (by omega)]

theorem mapped_of_not_refused (h : SelfMapped p.space.mem p.space.cr3) (hb : p.processBreak < 0xFFC00000)
    (hrefused : ¬ p.Refused) : ∃ f, translate p.space.mem p.space.cr3 (p.processBreak / 4096) = some f := by
  unfold Refused at hrefused
  rw [Space.getPhysicalAddress_eq h (by omega)] at hrefused
  rcases htranslate : translate p.space.mem p.space.cr3 (p.processBreak / 4096) with _ | f
  · rw [htranslate] at hrefused
    exact absurd rfl hrefused
  · exact ⟨f, rfl⟩

/-! ### The steps of a call -/

theorem sbrk_refused (h : p.Refused) : p.sbrk c = some (minusOne, p) := by
  unfold sbrk
  unfold Refused at h
  simp [h]

private theorem sbrk_eq (h : SelfMapped p.space.mem p.space.cr3) (hb : p.processBreak < 0xFFC00000)
    (hrefused : ¬ p.Refused) :
    p.sbrk c = if p.currentPageEnd < p.newBreak c.increment then
        if p.pageTablesBoundary < p.newBreak c.increment then do
          let (grown, s) ← p.growPast c.increment c.lastPage
          if grown then p.growBefore c.increment c.lastPage (p.pageTables c.increment) (p.pastBoundary c.increment) s
          else some (minusOne, { p with space := s })
        else p.growBefore c.increment c.lastPage 0 0 p.space
      else some (p.processBreak, { p with processBreak := p.newBreak c.increment }) := by
  unfold Refused at hrefused
  have haddress := Space.getPhysicalAddress_eq h (a := p.processBreak) (by omega)
  rw [haddress, Option.some.injEq] at hrefused
  unfold sbrk
  rw [haddress]
  simp only [Option.bind_eq_bind, Option.bind_some, hrefused, if_false]

/-- Without a new page the break moves. -/
theorem sbrk_moved (h : SelfMapped p.space.mem p.space.cr3) (hb : p.processBreak < 0xFFC00000) (hrefused : ¬ p.Refused)
    (hle : p.newBreak c.increment ≤ p.currentPageEnd) :
    p.sbrk c = some (p.processBreak, { p with processBreak := p.newBreak c.increment }) := by
  rw [sbrk_eq h hb hrefused, if_neg (by omega)]

private theorem getPageTable_page (a : Nat) :
    getPageTable a / 4096 = 0xFFC00 + a / 4096 / 1024 ∧ getPageTable a % 4096 = 0 := by
  unfold getPageTable PAGE_TABLES_ADDR PAGES_PER_TABLE PAGE_SIZE
  omega

private theorem growBefore_eq {s : Space} {lastPage : Bool} {tables past : Nat} (h : SelfMapped s.mem s.cr3)
    (ha : p.currentPageEnd ≤ 0xFFC00000) : ∃ t, s.getPhysicalAddress (getPageTable p.currentPageEnd) = some t ∧
      p.growBefore increment lastPage tables past s =
        (s.allocateMultiplePages (p.currentPageEnd / PAGE_SIZE)
          (sub32 (sub32 (p.newBreak increment) p.currentPageEnd / PAGE_SIZE) past) false t).bind fun r =>
            if r.1 then some (p.processBreak, ⟨r.2, p.newBreak increment⟩)
            else (kfreeTables lastPage tables r.2).map fun s => (minusOne, { p with space := s }) := by
  obtain ⟨hpage, hoffset⟩ := getPageTable_page p.currentPageEnd
  have haddress := Space.getPhysicalAddress_eq h (a := getPageTable p.currentPageEnd) (by omega)
  obtain ⟨t, ht⟩ : ∃ t, s.getPhysicalAddress (getPageTable p.currentPageEnd) = some t := ⟨_, haddress⟩
  refine ⟨t, ht, ?_⟩
  unfold growBefore
  rw [ht]
  refine (Option.bind_some ..).trans (Option.bind_congr fun ⟨allocated, s'⟩ _ => ?_)
  cases allocated with
  | false =>
    rw [Option.map_eq_bind]
    rfl
  | true => rfl

private theorem growth_eq (h : Moves p increment) (hlt : p.currentPageEnd < p.newBreak increment) :
    sub32 (p.newBreak increment) p.currentPageEnd / PAGE_SIZE = p.growth increment ∧ p.growth increment < 0x100000 := by
  have hnew := h.newBreak_eq
  have htop := h.top
  rw [sub32_eq (by omega) (by omega)]
  unfold growth PAGE_SIZE
  omega

/-! ### Growth up to the boundary -/

/-- Up to the boundary the pages have the table of the break's page. -/
theorem within_present (hrun : Running p.space) (h : Moves p increment) (hrefused : ¬ p.Refused)
    (hlt : p.currentPageEnd < p.newBreak increment) (hle : p.newBreak increment ≤ p.pageTablesBoundary) :
    p.currentPageEnd / PAGE_SIZE + p.growth increment ≤ 0xFFC00 ∧
      ∀ q, p.currentPageEnd / PAGE_SIZE ≤ q → q < p.currentPageEnd / PAGE_SIZE + p.growth increment →
        (p.space.mem p.space.cr3 (q / 1024)).present = true := by
  obtain ⟨f, hf⟩ := mapped_of_not_refused hrun.toSelfMapped h.old hrefused
  obtain ⟨hpresent, -, -⟩ := translate_eq_some.1 hf
  have hend := currentPageEnd_eq h.old
  have hboundary := pageTablesBoundary_eq h.old
  have hnew := h.newBreak_eq
  have hold := h.old
  have htop := h.top
  unfold growth PAGE_SIZE
  refine ⟨by omega, fun q hlo hhi => ?_⟩
  rw [show q / 1024 = p.processBreak / 4096 / 1024 by omega]
  exact hpresent

private theorem sbrk_within (hrun : Running p.space) (h : Moves p c.increment) (hrefused : ¬ p.Refused)
    (hlt : p.currentPageEnd < p.newBreak c.increment) (hle : p.newBreak c.increment ≤ p.pageTablesBoundary) :
    ∃ t, p.space.getPhysicalAddress (getPageTable p.currentPageEnd) = some t ∧
      p.sbrk c = (p.space.allocateMultiplePages (p.currentPageEnd / PAGE_SIZE) (p.growth c.increment) false t).map fun r =>
        if r.1 then (p.processBreak, ⟨r.2, p.newBreak c.increment⟩) else (minusOne, { p with space := r.2 }) := by
  have hend := currentPageEnd_eq h.old
  have hnew := h.newBreak_eq
  have hold := h.old
  have htop := h.top
  obtain ⟨t, ht, hbefore⟩ := @growBefore_eq p c.increment p.space c.lastPage 0 0 hrun.toSelfMapped (by omega)
  refine ⟨t, ht, ?_⟩
  obtain ⟨hgrowth, hbound⟩ := growth_eq h hlt
  rw [sbrk_eq hrun.toSelfMapped h.old hrefused, if_pos hlt, if_neg (by omega), hbefore, hgrowth,
    sub32_eq (Nat.zero_le _) (by omega), Nat.sub_zero, Option.map_eq_bind]
  refine Option.bind_congr fun ⟨allocated, s'⟩ _ => ?_
  cases allocated with
  | false => rfl
  | true => rfl

/-- With frames for the pages up to the boundary the growth is granted. -/
theorem sbrk_within_granted {fs : List Nat} {q : PmmInfo} (hrun : Running p.space) (h : Moves p c.increment)
    (hrefused : ¬ p.Refused) (hlt : p.currentPageEnd < p.newBreak c.increment)
    (hle : p.newBreak c.increment ≤ p.pageTablesBoundary)
    (hfs : takeFrames (p.growth c.increment) p.space.pmm = some (fs, q)) :
    ∃ t, p.sbrk c = some (p.processBreak,
      ⟨p.space.withRange t (p.currentPageEnd / PAGE_SIZE) fs q, p.newBreak c.increment⟩) := by
  obtain ⟨t, -, hsbrk⟩ := sbrk_within hrun h hrefused hlt hle
  obtain ⟨hpages, hpresent⟩ := within_present hrun h hrefused hlt hle
  have hfit : Fitting p.space t (p.currentPageEnd / PAGE_SIZE) (p.growth c.increment) :=
    fitting_of_present hpages hpresent
  refine ⟨t, ?_⟩
  rw [hsbrk, Space.allocateMultiplePages_true false (hrun.ordinary hfit).toPlain hfs]
  rfl

/-- The frames for `n` pages from the page end on run out, and what was mapped is unmapped again. -/
def Restores (p : Process) (n : Nat) : Prop :=
  ∃ t fs q, p.space.getPhysicalAddress (getPageTable p.currentPageEnd) = some t ∧ fs.length < n ∧
    takeFrames fs.length p.space.pmm = some (fs, q) ∧ (∀ f q', pmmAllocatePage q = some (f, q') → f = 0) ∧
    Restorable p.space (p.currentPageEnd / PAGE_SIZE) t fs

/-- What a growth up to the boundary does. -/
inductive Within (p : Process) (increment : Int) (r : Nat) (p' : Process) : Prop
  | grown (t : Nat) (fs : List Nat) (q : PmmInfo) (hfs : takeFrames (p.growth increment) p.space.pmm = some (fs, q))
      (hfit : Fitting p.space t (p.currentPageEnd / PAGE_SIZE) fs.length)
      (hr : r = p.processBreak) (hbreak : p'.processBreak = p.newBreak increment)
      (hspace : p'.space = p.space.withRange t (p.currentPageEnd / PAGE_SIZE) fs q)
  | restored (t : Nat) (fs : List Nat) (q : PmmInfo)
      (hrestorable : Restorable p.space (p.currentPageEnd / PAGE_SIZE) t fs)
      (hlength : fs.length < p.growth increment)
      (hfit : Fitting p.space t (p.currentPageEnd / PAGE_SIZE) fs.length)
      (hnone : takeFrames (p.growth increment) p.space.pmm = none)
      (hcleared : Cleared (rangeMem p.space.mem p.space.cr3 t false (p.currentPageEnd / PAGE_SIZE) fs) p.space.cr3 t
        (p.currentPageEnd / PAGE_SIZE) fs.length)
      (hr : r = minusOne) (hbreak : p'.processBreak = p.processBreak)
      (hspace : p'.space = { p.space with
        mem := clearMem (rangeMem p.space.mem p.space.cr3 t false (p.currentPageEnd / PAGE_SIZE) fs) p.space.cr3 t
          (p.currentPageEnd / PAGE_SIZE) fs.length
        pmm := q })
      (hocc : ∀ f, occupied q f = occupied p.space.pmm f)
      (hsame : ∀ w, w < 0x100000 → translate p'.space.mem p.space.cr3 w = translate p.space.mem p.space.cr3 w)

theorem within_cases {r : Nat} {p' : Process} (hrun : Running p.space) (h : Moves p c.increment) (hrefused : ¬ p.Refused)
    (hlt : p.currentPageEnd < p.newBreak c.increment) (hle : p.newBreak c.increment ≤ p.pageTablesBoundary)
    (hfits : (takeFrames (p.growth c.increment) p.space.pmm).isSome = true ∨ p.Restores (p.growth c.increment))
    (hs : p.sbrk c = some (r, p')) : Within p c.increment r p' := by
  obtain ⟨t, ht, hsbrk⟩ := sbrk_within hrun h hrefused hlt hle
  obtain ⟨hpages, hpresent⟩ := within_present hrun h hrefused hlt hle
  have hfit : Fitting p.space t (p.currentPageEnd / PAGE_SIZE) (p.growth c.increment) :=
    fitting_of_present hpages hpresent
  rw [hsbrk] at hs
  by_cases hframes : (takeFrames (p.growth c.increment) p.space.pmm).isSome = true
  · obtain ⟨⟨fs, q⟩, hfs⟩ := Option.isSome_iff_exists.1 hframes
    rw [Space.allocateMultiplePages_true false (hrun.ordinary hfit).toPlain hfs] at hs
    cases hs
    exact .grown t fs q hfs (hfit.mono (Pmm.takeFrames_length hfs).le) rfl rfl rfl
  · obtain ⟨t', fs, q, ht', hlength, hfs, hout, hrestorable⟩ := hfits.resolve_left hframes
    rw [ht] at ht'
    cases ht'
    obtain ⟨⟨allocated, s'⟩, hallocate, -⟩ := Option.map_eq_some_iff.1 hs
    obtain ⟨f, q', hnext⟩ := Space.allocateMultiplePages_next false hrestorable.toPlain hfs hlength hallocate
    obtain rfl := hout f q' hnext
    obtain ⟨q₁, hq₁, hcleared, hocc, hsame⟩ := hrestorable.allocate_eq false hrun.zero hfs hlength hnext
    rw [hq₁] at hs
    cases hs
    rw [Bool.not_eq_true, Option.isSome_eq_false_iff, Option.isNone_iff_eq_none] at hframes
    exact .restored t fs q₁ hrestorable hlength (hfit.mono hlength.le) hframes hcleared rfl rfl rfl hocc hsame

/-! ### Growth past the boundary -/

/-- The counts behind the boundary. -/
theorem across_counts (h : Moves p increment) (hacross : p.pageTablesBoundary < p.newBreak increment) :
    p.currentPageEnd ≤ p.pageTablesBoundary ∧ 0 < p.pageTables increment ∧ p.pageTables increment ≤ 1024 ∧
      p.pageTablesBoundary / PAGE_SIZE + p.pastBoundary increment ≤ 0xFFC00 ∧
      p.pageTables increment = (p.newBreak increment - p.pageTablesBoundary) / 0x400000 + 1 ∧
      p.pastBoundary increment = (p.pageTables increment - 1) * 1024 + 1 := by
  have hend := currentPageEnd_eq h.old
  have hboundary := pageTablesBoundary_eq h.old
  have hnew := h.newBreak_eq
  have htop := h.top
  have htables : p.pageTables increment = (p.newBreak increment - p.pageTablesBoundary) / 0x400000 + 1 := by
    unfold pageTables PAGES_PER_TABLE PAGE_SIZE
    rw [sub32_eq (by omega) (by omega)]
  have hpast : p.pastBoundary increment = (p.pageTables increment - 1) * 1024 + 1 := rfl
  unfold PAGE_SIZE
  refine ⟨by omega, by omega, by omega, by omega, htables, hpast⟩

private theorem growPast_eq (lastPage : Bool) {f₀ : Nat} {hs fs : List Nat} {q₁ q₂ : PmmInfo} (hrun : Running p.space)
    (h : Moves p increment) (hacross : p.pageTablesBoundary < p.newBreak increment)
    (hheap : HeapPages p.space.currHeapEnd (p.pageTables increment + 1))
    (hhs : takeFrames (p.pageTables increment + 1) p.space.pmm = some (f₀ :: hs, q₁))
    (hfs : takeFrames (p.pastBoundary increment) q₁ = some (fs, q₂)) :
    Running (p.space.withHeap (f₀ :: hs) q₁) ∧
      Fitting (p.space.withHeap (f₀ :: hs) q₁) (f₀ * PAGE_SIZE) (p.pageTablesBoundary / PAGE_SIZE) fs.length ∧
      p.growPast increment lastPage = some (true,
        (p.space.withHeap (f₀ :: hs) q₁).withRange (f₀ * PAGE_SIZE) (p.pageTablesBoundary / PAGE_SIZE) fs q₂) := by
  obtain ⟨-, hpos, hmax, hpages, -, -⟩ := across_counts h hacross
  have hlength : (f₀ :: hs).length = p.pageTables increment + 1 := Pmm.takeFrames_length hhs
  have hv : HeapPages p.space.currHeapEnd (f₀ :: hs).length := by rwa [hlength]
  obtain ⟨hfree, hbound⟩ := (Pmm.takeFrames_free hhs).2 f₀ List.mem_cons_self
  have hbound : f₀ < 0x100000 := hbound
  have hbits : bits20 f₀ = f₀ := Nat.mod_eq_of_lt hbound
  have hrun₁ : Running (p.space.withHeap (f₀ :: hs) q₁) := hrun.withHeap hv (Nat.succ_pos _) hhs
  have htable : UserTable (p.space.withHeap (f₀ :: hs) q₁) f₀ := by
    refine ⟨occupied_of_mem hhs List.mem_cons_self, ?_, ?_⟩
    · by_contra hlow
      rw [hrun.low f₀ (by omega)] at hfree
      cases hfree
    · intro heq
      rw [show f₀ = p.space.cr3 from heq, hrun.used] at hfree
      cases hfree
  have hfit : Fitting (p.space.withHeap (f₀ :: hs) q₁) (f₀ * PAGE_SIZE) (p.pageTablesBoundary / PAGE_SIZE) fs.length := by
    refine ⟨by rw [Pmm.takeFrames_length hfs]; exact hpages, fun _ _ _ _ _ => ?_⟩
    rw [Nat.mul_div_cancel f₀ (by decide : 0 < PAGE_SIZE), hbits]
    exact htable
  refine ⟨hrun₁, hfit, ?_⟩
  have hkmalloc := Space.kmallocPages_eq hrun.toDirectory hpos (by omega) hheap hhs
  rw [← hlength] at hkmalloc
  have hend : p.space.currHeapEnd < 0x100000 := by
    have := hheap.head.2
    omega
  have hphys : (p.space.withHeap (f₀ :: hs) q₁).getPhysicalAddress (p.space.currHeapEnd * PAGE_SIZE) =
      some (f₀ * PAGE_SIZE) := by
    have htranslate : translate (p.space.withHeap (f₀ :: hs) q₁).mem (p.space.withHeap (f₀ :: hs) q₁).cr3
        p.space.currHeapEnd = some f₀ := by
      have := translate_growMem (k := 0) hrun.toDirectory hv rfl
      rwa [hbits] at this
    unfold PAGE_SIZE
    rw [Space.getPhysicalAddress_eq hrun₁.toSelfMapped (by omega), Nat.mul_div_cancel _ (by decide), htranslate,
      Nat.mul_mod_left, Option.elim_some, Nat.add_zero, Nat.mod_eq_of_lt (by omega)]
  unfold growPast
  rw [hkmalloc]
  refine (Option.bind_some ..).trans ?_
  refine (congrArg (fun o => Option.bind o _) hphys).trans ?_
  refine (Option.bind_some ..).trans ?_
  rw [← Pmm.takeFrames_length hfs]
  have hlengthfs := Pmm.takeFrames_length hfs
  rw [← hlengthfs] at hfs
  refine (congrArg (fun o => Option.bind o _)
    (Space.allocateMultiplePages_true false (hrun₁.ordinary hfit).toPlain hfs)).trans ?_
  rfl

/-- The pages that are left lie in the tables on both sides of the boundary. -/
private theorem across_tables (h : Moves p increment) (hacross : p.pageTablesBoundary < p.newBreak increment)
    (hcount : p.pastBoundary increment ≤ p.growth increment) :
    p.currentPageEnd / PAGE_SIZE + (p.growth increment - p.pastBoundary increment) ≤ 0xFFC00 ∧
      ∀ q, p.currentPageEnd / PAGE_SIZE ≤ q →
        q < p.currentPageEnd / PAGE_SIZE + (p.growth increment - p.pastBoundary increment) →
        q / 1024 = p.processBreak / 4096 / 1024 ∨ q / 1024 = p.pageTablesBoundary / PAGE_SIZE / 1024 := by
  obtain ⟨hle, hpos, -, -, htables, hpast⟩ := across_counts h hacross
  have hend := currentPageEnd_eq h.old
  have hboundary := pageTablesBoundary_eq h.old
  have hnew := h.newBreak_eq
  have htop := h.top
  have hgrowth : p.growth increment = (p.newBreak increment - p.currentPageEnd) / 0x1000 := rfl
  unfold PAGE_SIZE
  obtain ⟨d, hd⟩ : ∃ d, p.newBreak increment = p.pageTablesBoundary + d := Nat.exists_eq_add_of_le hacross.le
  obtain ⟨k, hk⟩ : ∃ k, p.pageTablesBoundary = p.currentPageEnd + k * 0x1000 :=
    ⟨(p.pageTablesBoundary - p.currentPageEnd) / 0x1000, by omega⟩
  rw [show p.newBreak increment - p.pageTablesBoundary = d by omega] at htables
  rw [show p.newBreak increment - p.currentPageEnd = k * 0x1000 + d by omega] at hgrowth
  refine ⟨by omega, fun q hlo hhi => ?_⟩
  by_cases hq : q * 0x1000 < p.pageTablesBoundary
  · left
    omega
  · right
    omega

/-- What a growth past the boundary does. -/
inductive Across (p : Process) (increment : Int) (r : Nat) (p' : Process) : Prop
  | grown (f₀ t : Nat) (hs fs gs : List Nat) (q₁ q₂ q₃ : PmmInfo) (s₁ s₂ : Space)
      (hhs : takeFrames (p.pageTables increment + 1) p.space.pmm = some (f₀ :: hs, q₁))
      (hfs : takeFrames (p.pastBoundary increment) q₁ = some (fs, q₂))
      (hgs : takeFrames (p.growth increment - p.pastBoundary increment) q₂ = some (gs, q₃))
      (hs₁ : s₁ = p.space.withHeap (f₀ :: hs) q₁)
      (hs₂ : s₂ = s₁.withRange (f₀ * PAGE_SIZE) (p.pageTablesBoundary / PAGE_SIZE) fs q₂)
      (hrun₁ : Running s₁)
      (hfit₁ : Fitting s₁ (f₀ * PAGE_SIZE) (p.pageTablesBoundary / PAGE_SIZE) fs.length)
      (hfit₂ : Fitting s₂ t (p.currentPageEnd / PAGE_SIZE) gs.length)
      (hr : r = p.processBreak) (hbreak : p'.processBreak = p.newBreak increment)
      (hspace : p'.space = s₂.withRange t (p.currentPageEnd / PAGE_SIZE) gs q₃)
  | refused (hr : r = minusOne) (hp : p' = p)

theorem sbrk_across {r : Nat} {p' : Process} (hrun : Running p.space) (h : Moves p c.increment) (hrefused : ¬ p.Refused)
    (hlt : p.currentPageEnd < p.newBreak c.increment) (hacross : p.pageTablesBoundary < p.newBreak c.increment)
    (hcount : p.pastBoundary c.increment ≤ p.growth c.increment)
    (hheap : HeapPages p.space.currHeapEnd (p.pageTables c.increment + 1))
    (hframes : (takeFrames (p.pageTables c.increment + 1 + p.growth c.increment) p.space.pmm).isSome = true)
    (hs : p.sbrk c = some (r, p')) : r = p.processBreak ∧ Across p c.increment r p' := by
  obtain ⟨-, hpos, hmax, -, -, -⟩ := across_counts h hacross
  obtain ⟨hpages, htables⟩ := across_tables h hacross hcount
  obtain ⟨⟨all, q₃⟩, hall⟩ := Option.isSome_iff_exists.1 hframes
  rw [show p.growth c.increment = p.pastBoundary c.increment + (p.growth c.increment - p.pastBoundary c.increment) by
    omega] at hall
  obtain ⟨q₁, hhs, hall⟩ := Pmm.takeFrames_add hall
  obtain ⟨q₂, hfs, hgs⟩ := Pmm.takeFrames_add hall
  obtain ⟨f₀, hs₀, hcons⟩ : ∃ f₀ hs₀, all.take (p.pageTables c.increment + 1) = f₀ :: hs₀ := by
    apply List.exists_cons_of_length_eq_add_one
    exact Pmm.takeFrames_length hhs
  rw [hcons] at hhs
  generalize (all.drop (p.pageTables c.increment + 1)).take (p.pastBoundary c.increment) = fs at hfs
  generalize (all.drop (p.pageTables c.increment + 1)).drop (p.pastBoundary c.increment) = gs at hgs
  obtain ⟨hrun₁, hfit₁, hpast⟩ := growPast_eq c.lastPage hrun h hacross hheap hhs hfs
  have hrun₂ := hrun₁.withRange hfit₁ hfs
  have hv : HeapPages p.space.currHeapEnd (f₀ :: hs₀).length := by rwa [Pmm.takeFrames_length hhs]
  have hlength : gs.length = p.growth c.increment - p.pastBoundary c.increment := Pmm.takeFrames_length hgs
  obtain ⟨s₁, hs₁⟩ : ∃ s₁, s₁ = p.space.withHeap (f₀ :: hs₀) q₁ := ⟨_, rfl⟩
  have hcr3₁ : s₁.cr3 = p.space.cr3 := by rw [hs₁, Space.withHeap_cr3]
  rw [← hs₁] at hrun₁ hrun₂ hfit₁ hpast
  obtain ⟨s₂, hs₂⟩ : ∃ s₂, s₂ = s₁.withRange (f₀ * PAGE_SIZE) (p.pageTablesBoundary / PAGE_SIZE) fs q₂ := ⟨_, rfl⟩
  have hcr3 : s₂.cr3 = s₁.cr3 := by rw [hs₂, Space.withRange_cr3]
  have hpmm : s₂.pmm = q₂ := by rw [hs₂, Space.withRange_pmm]
  -- the tables of the pages that are left
  have hpresent : ∀ q, p.currentPageEnd / PAGE_SIZE ≤ q → q < p.currentPageEnd / PAGE_SIZE + gs.length →
      (s₂.mem s₂.cr3 (q / 1024)).present = true := by
    intro q hlo hhi
    rw [hlength] at hhi
    rw [hcr3, hs₂]
    obtain hold | hnew := htables q hlo hhi
    · obtain ⟨f, hf⟩ := mapped_of_not_refused hrun.toSelfMapped h.old hrefused
      have hthere := present_withHeap (p := q₁) hrun hv (translate_eq_some.1 hf).1
      rw [← hs₁, ← hcr3₁] at hthere
      rw [hold]
      exact present_withRange_of_present hrun₁ hfit₁ hthere
    · rw [hnew]
      refine present_withRange hrun₁ hfit₁ (Nat.le_refl _) ?_
      have hpos : 0 < p.pastBoundary c.increment := Nat.succ_pos _
      rw [Pmm.takeFrames_length hfs]
      omega
  rw [← hs₂] at hrun₂ hpast
  have hend := currentPageEnd_eq h.old
  have hold := h.old
  obtain ⟨t, -, hbefore⟩ := @growBefore_eq p c.increment s₂ c.lastPage (p.pageTables c.increment)
    (p.pastBoundary c.increment) hrun₂.toSelfMapped (by omega)
  have hfit₂ : Fitting s₂ t (p.currentPageEnd / PAGE_SIZE) gs.length :=
    fitting_of_present (by rw [hlength]; exact hpages) hpresent
  obtain ⟨hgrowth, hbound⟩ := growth_eq h hlt
  have hrange : s₂.allocateMultiplePages (p.currentPageEnd / PAGE_SIZE)
      (p.growth c.increment - p.pastBoundary c.increment) false t =
      some (true, s₂.withRange t (p.currentPageEnd / PAGE_SIZE) gs q₃) := by
    have hgs' := hgs
    rw [← hpmm, ← hlength] at hgs'
    rw [← hlength]
    exact Space.allocateMultiplePages_true false (hrun₂.ordinary hfit₂).toPlain hgs'
  have hsbrk : p.sbrk c = some (p.processBreak,
      ⟨s₂.withRange t (p.currentPageEnd / PAGE_SIZE) gs q₃, p.newBreak c.increment⟩) := by
    rw [sbrk_eq hrun.toSelfMapped h.old hrefused, if_pos hlt, if_pos hacross, hpast]
    refine (Option.bind_some ..).trans ?_
    refine Eq.trans (if_pos rfl) ?_
    rw [hbefore, hgrowth, sub32_eq hcount (by omega), hrange]
    rfl
  rw [hsbrk] at hs
  cases hs
  exact ⟨rfl, .grown f₀ t hs₀ fs gs q₁ q₂ q₃ s₁ s₂ hhs hfs hgs hs₁ hs₂ hrun₁ hfit₁ hfit₂ rfl rfl rfl⟩

/-- No page for the heap is there: no frame, or the heap is at its end. -/
def HeapExhausted (s : Space) : Prop := takeFrames 1 s.pmm = none ∨ KERNEL_HEAP_END ≤ s.currHeapEnd

private theorem allocateHeapPage_exhausted {s s' : Space} {allocated : Bool} (hrun : Running s) (h : HeapExhausted s)
    (hs : s.allocateHeapPage = some (allocated, s')) : allocated = false ∧ s' = s := by
  obtain hnone | hend := h
  · obtain ⟨hfalse, hsame, -⟩ | ⟨f, q, -, hf, hne, -, -⟩ := Space.allocateHeapPage_cases hrun.toDirectory hrun.zero
      (fun hsome => by rw [hnone] at hsome; cases hsome) hs
    · exact ⟨hfalse, hsame⟩
    · rw [Pmm.takeFrames_succ.2 ⟨f, q, [], hf, hne, rfl, rfl⟩] at hnone
      cases hnone
  · unfold Space.allocateHeapPage at hs
    rw [if_pos hend] at hs
    cases hs
    exact ⟨rfl, rfl⟩

private theorem kmallocPages_exhausted {s s' : Space} {n : Nat} {page : Option Nat} (hrun : Running s)
    (h : HeapExhausted s)
    (hpos : 0 < n) (hmax : n ≤ 0x3E7FF) (hs : s.kmallocPages n = some (page, s')) : page = none ∧ s' = s := by
  have hamount : ¬ (n = 0 ∨ KERNEL_HEAP_END - KERNEL_CODE_END < n) := by
    have : KERNEL_HEAP_END - KERNEL_CODE_END = 0x3E7FF := rfl
    omega
  unfold Space.kmallocPages at hs
  rw [if_neg hamount] at hs
  obtain ⟨⟨allocated, s₁⟩, hloop, hlast⟩ := Option.bind_eq_some_iff.1 hs
  unfold Space.kmallocLoop at hloop
  obtain ⟨⟨first, s₂⟩, hfirst, hrest⟩ := Option.bind_eq_some_iff.1 hloop
  obtain ⟨rfl, rfl⟩ := allocateHeapPage_exhausted hrun h hfirst
  cases hrest
  cases hlast
  exact ⟨rfl, rfl⟩

/-- Without a page for the tables nothing happens. -/
theorem sbrk_exhausted {r : Nat} {p' : Process} (hrun : Running p.space) (h : Moves p c.increment)
    (hrefused : ¬ p.Refused) (hlt : p.currentPageEnd < p.newBreak c.increment)
    (hacross : p.pageTablesBoundary < p.newBreak c.increment) (hexhausted : HeapExhausted p.space)
    (hs : p.sbrk c = some (r, p')) : r = minusOne ∧ p' = p := by
  obtain ⟨-, hpos, hmax, -, -, -⟩ := across_counts h hacross
  rw [sbrk_eq hrun.toSelfMapped h.old hrefused, if_pos hlt, if_pos hacross] at hs
  obtain ⟨⟨grown, s₁⟩, hgrown, hlast⟩ := Option.bind_eq_some_iff.1 hs
  obtain ⟨⟨page, s₂⟩, hpage, hrest⟩ := Option.bind_eq_some_iff.1 hgrown
  obtain ⟨rfl, rfl⟩ := kmallocPages_exhausted hrun hexhausted hpos (by omega) hpage
  cases hrest
  cases hlast
  exact ⟨rfl, rfl⟩

end Process

end DBolOS.Paging
