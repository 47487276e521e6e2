import DBolOS.Paging.Directory

/-!
# The recursive entry

The tables are edited through the addresses that the recursive entry gives them.  Where the present entries of the
directory are different tables, these addresses reach the entry that the MMU uses, and mapping or unmapping a page
changes the address of this page and of no other (`recursive_mapping`).
-/

namespace DBolOS.Paging

variable {mem mem' : Memory} {s : Space} {c v w p : Nat}

/-- The frame and index of the entry that the MMU uses for page `vpn`. -/
def mmuEntry (mem : Memory) (pd vpn : Nat) : Option (Nat × Nat) :=
  let pde := mem pd (vpn / PAGES_PER_TABLE)
  if pde.present then some (pde.address, vpn % PAGES_PER_TABLE) else none

/-- The present entries of a directory other than the last are different tables, and none of them is the directory. -/
structure DistinctTables (mem : Memory) (c : Nat) : Prop where
  apart : ∀ i, i < 1023 → (mem c i).present = true → (mem c i).address ≠ c
  distinct : ∀ i j, i < 1023 → j < 1023 → (mem c i).present = true → (mem c j).present = true →
    (mem c i).address = (mem c j).address → i = j

namespace Space

/-- `&page_tables[vpn]`. -/
def getPte (vpn : Nat) : Nat := (PAGE_TABLES_ADDR + 4 * vpn) % 0x100000000

def pagingUnmapPage (s : Space) (vpn : Nat) : Option Space :=
  s.modify (getPte vpn) fun pte => { pte with present := false }

def getPhysicalAddress (s : Space) (virtualAddress : Nat) : Option Nat := do
  let vpn := virtualAddress / PAGE_SIZE
  let pde ← s.load (pdEntry vpn)
  if !pde.present then some 0
  else do
    let pte ← s.load (ptEntry vpn)
    if !pte.present then some 0
    else some ((pte.address * PAGE_SIZE + virtualAddress % PAGE_SIZE) % 0x100000000)

end Space

/-! ### The entry of a page -/

private theorem mmuEntry_eq_some (h : (mem c (v / 1024)).present = true) :
    mmuEntry mem c v = some ((mem c (v / 1024)).address, v % 1024) := if_pos h

/-- `GET_PAGE_TABLE(vpn)[vpn % 1024]` and `get_pte(vpn)` are one address. -/
private theorem Space.getPte_eq (v : Nat) : getPte v = ptEntry v := by
  unfold getPte ptEntry PAGES_PER_TABLE PAGE_SIZE
  congr 1
  omega

/-- `get_physical_address` follows the walk of the MMU. -/
theorem Space.getPhysicalAddress_eq (h : SelfMapped s.mem s.cr3) {a : Nat} (ha : a < 0x100000000) :
    s.getPhysicalAddress a = some ((translate s.mem s.cr3 (a / 4096)).elim 0
      fun f => (f * 4096 + a % 4096) % 0x100000000) := by
  have hv : a / 4096 < 0x100000 := by omega
  unfold getPhysicalAddress translate PAGE_SIZE PAGES_PER_TABLE
  dsimp only
  rw [load_eq (locate_pdEntry h hv)]
  simp only [Option.bind_eq_bind, Option.bind_some]
  by_cases hpde : (s.mem s.cr3 (a / 4096 / 1024)).present = true
  · rw [load_eq (locate_ptEntry h hv hpde)]
    by_cases hpte : (s.mem (s.mem s.cr3 (a / 4096 / 1024)).address (a / 4096 % 1024)).present = true
    · simp [hpde, hpte]
    · simp [hpde, hpte]
  · simp [hpde]

/-! ### One entry changed -/

/-- Where the directory keeps its tables and the table of page `v` only its entry for `v` changes, every other page
is translated as before. -/
private theorem translate_of_ne (h : SelfMapped mem c) (hd : DistinctTables mem c) (hv : v < 0xFFC00)
    (hpresent : (mem c (v / 1024)).present = true)
    (hdir : ∀ i, (mem' c i).present = (mem c i).present ∧ (mem' c i).address = (mem c i).address)
    (htable : ∀ g j, g ≠ c → ¬ (g = (mem c (v / 1024)).address ∧ j = v % 1024) → mem' g j = mem g j)
    (hw : w < 0x100000) (hne : w ≠ v) : translate mem' c w = translate mem c w := by
  unfold translate PAGES_PER_TABLE
  dsimp only
  obtain ⟨hp, ha⟩ := hdir (w / 1024)
  rw [hp, ha]
  by_cases hpde : (mem c (w / 1024)).present = true
  · rw [if_pos hpde, if_pos hpde]
    by_cases hlast : w / 1024 = 1023
    · -- a page of the recursive entry: its table is the directory
      obtain ⟨hp', ha'⟩ := hdir (w % 1024)
      rw [hlast, h.self, hp', ha']
    · have hrest : mem' (mem c (w / 1024)).address (w % 1024) = mem (mem c (w / 1024)).address (w % 1024) := by
        refine htable _ _ (hd.apart _ (by omega) hpde) ?_
        rintro ⟨hsame, hindex⟩
        have := hd.distinct _ _ (by omega) (by omega) hpde hpresent hsame
        omega
      rw [hrest]
  · rw [if_neg hpde, if_neg hpde]

private theorem translate_mapInto (h : SelfMapped mem c) (hd : DistinctTables mem c) (hv : v < 0xFFC00)
    (hpresent : (mem c (v / 1024)).present = true) (hp : p < 0x100000) (onlyKernelMode : Bool) (hw : w < 0x100000) :
    translate (mapInto mem c v (mem c (v / 1024)) p onlyKernelMode) c w =
      if w = v then some p else translate mem c w := by
  have hapart : (mem c (v / 1024)).address ≠ c := hd.apart _ (by omega) hpresent
  have hdir : ∀ i, (mapInto mem c v (mem c (v / 1024)) p onlyKernelMode c i).present = (mem c i).present ∧
      (mapInto mem c v (mem c (v / 1024)) p onlyKernelMode c i).address = (mem c i).address := by
    intro i
    unfold mapInto
    split
    · rename_i hi
      rw [hi.2]
      exact ⟨rfl, rfl⟩
    · rw [if_neg fun hi => hapart hi.1.symm]
      exact ⟨rfl, rfl⟩
  by_cases hwv : w = v
  · rw [if_pos hwv, hwv, translate_eq_some, (hdir _).1, (hdir _).2]
    have hentry : mapInto mem c v (mem c (v / 1024)) p onlyKernelMode (mem c (v / 1024)).address (v % 1024) =
        Space.mapped p onlyKernelMode (mem (mem c (v / 1024)).address (v % 1024)) := by
      unfold mapInto
      rw [if_neg fun hand => hapart hand.1, if_pos ⟨rfl, rfl⟩]
    rw [hentry]
    exact ⟨hpresent, rfl, Nat.mod_eq_of_lt hp⟩
  · rw [if_neg hwv]
    refine translate_of_ne h hd hv hpresent hdir ?_ hw hwv
    intro g j hg hne
    unfold mapInto
    rw [if_neg fun hand => hg hand.1, if_neg hne]

private theorem translate_unmapped (h : SelfMapped mem c) (hd : DistinctTables mem c) (hv : v < 0xFFC00)
    (hpresent : (mem c (v / 1024)).present = true) (e : PageEntry) (he : e.present = false) (hw : w < 0x100000) :
    translate (mem.set (mem c (v / 1024)).address (v % 1024) e) c w = if w = v then none else translate mem c w := by
  have hapart : (mem c (v / 1024)).address ≠ c := hd.apart _ (by omega) hpresent
  have hdir : ∀ i, mem.set (mem c (v / 1024)).address (v % 1024) e c i = mem c i := fun i => by
    unfold Memory.set
    rw [if_neg fun hand => hapart hand.1.symm]
  by_cases hwv : w = v
  · have hentry : mem.set (mem c (v / 1024)).address (v % 1024) e (mem c (v / 1024)).address (v % 1024) = e :=
      if_pos ⟨rfl, rfl⟩
    rw [if_pos hwv, hwv]
    unfold translate PAGES_PER_TABLE
    dsimp only
    rw [hdir, if_pos hpresent, hentry, if_neg (by rw [he]; decide)]
  · rw [if_neg hwv]
    refine translate_of_ne h hd hv hpresent (fun i => by rw [hdir]; exact ⟨rfl, rfl⟩) ?_ hw hwv
    intro g j _ hne
    exact if_neg hne

/-! ### Mapping and unmapping -/

/-- Under a directory that maps itself and has different tables, the entry of a page whose table is there is the one
the MMU uses, and mapping or unmapping the page changes its address and no other. -/
theorem recursive_mapping (s : Space) (v : Nat) (h : SelfMapped s.mem s.cr3) (hd : DistinctTables s.mem s.cr3)
    (hv : v < 0xFFC00) (hpresent : (s.mem s.cr3 (v / 1024)).present = true) :
    (∃ entry, mmuEntry s.mem s.cr3 v = some entry ∧ s.locate (Space.ptEntry v) = some entry ∧
      s.locate (Space.getPte v) = some entry) ∧
    (∀ p onlyKernelMode tables, p < 2 ^ 20 → ∃ s', s.pagingMapPage p v onlyKernelMode tables = some s' ∧
      ∀ a, a < 2 ^ 32 →
        s'.getPhysicalAddress a = if a / 4096 = v then some (4096 * p + a % 4096) else s.getPhysicalAddress a) ∧
    ∃ s', s.pagingUnmapPage v = some s' ∧
      ∀ a, a < 2 ^ 32 → s'.getPhysicalAddress a = if a / 4096 = v then some 0 else s.getPhysicalAddress a := by
  have hv' : v < 0x100000 := by omega
  have hdir : v / 1024 < 1023 := by omega
  have hapart : (s.mem s.cr3 (v / 1024)).address ≠ s.cr3 := hd.apart _ (by omega) hpresent
  have hlocate := Space.locate_ptEntry h hv' hpresent
  have htable : ∀ tables, tableFor s.mem s.cr3 v tables = s.mem s.cr3 (v / 1024) := fun tables => if_pos hpresent
  refine ⟨⟨_, mmuEntry_eq_some hpresent, hlocate, by rw [Space.getPte_eq, hlocate]⟩, ?_, ?_⟩
  · intro p onlyKernelMode tables hp
    have hmap := Space.pagingMapPage_eq h hdir p onlyKernelMode tables (by rw [htable]; exact hapart)
    rw [htable] at hmap
    refine ⟨_, hmap, ?_⟩
    intro a ha
    have hself : SelfMapped (mapInto s.mem s.cr3 v (s.mem s.cr3 (v / 1024)) p onlyKernelMode) s.cr3 := by
      have hlast : mapInto s.mem s.cr3 v (s.mem s.cr3 (v / 1024)) p onlyKernelMode s.cr3 1023 = s.mem s.cr3 1023 := by
        unfold mapInto
        have hindex : 1023 ≠ v / 1024 := by omega
        rw [if_neg fun hand => hindex hand.2, if_neg fun hand => hapart hand.1.symm]
      exact ⟨by rw [hlast]; exact h.present, by rw [hlast]; exact h.self⟩
    rw [Space.getPhysicalAddress_eq hself ha, Space.getPhysicalAddress_eq h ha,
      translate_mapInto h hd hv hpresent hp onlyKernelMode (by omega)]
    split
    · have hbound : p * 4096 + a % 4096 < 0x100000000 := by omega
      rw [Option.elim_some, Nat.mod_eq_of_lt hbound, Nat.mul_comm]
    · rfl
  · rw [← Space.getPte_eq] at hlocate
    refine ⟨_, Space.modify_eq hlocate _, ?_⟩
    intro a ha
    rw [Space.getPhysicalAddress_eq (h.set (fun hand => hapart hand.1) _) ha, Space.getPhysicalAddress_eq h ha,
      translate_unmapped h hd hv hpresent _ rfl (by omega)]
    split
    · rfl
    · rfl

/-- A directory with two tables. -/
def twoTables : Space where
  mem := fun f i =>
    if f = 6 then
      if i = 1023 then System.identityEntry 6 else if i < 2 then System.identityEntry (7 + i) else .zero
    else System.identityEntry i
  pmm := .static
  cr3 := 6
  currentPageDirectory := Space.kernelPd
  currHeapEnd := KERNEL_CODE_END

theorem recursive_mapping_twoTables : ∃ s', twoTables.pagingMapPage 5 1029 false 0 = some s' ∧
    ∀ a, a < 2 ^ 32 →
      s'.getPhysicalAddress a = if a / 4096 = 1029 then some (4096 * 5 + a % 4096) else twoTables.getPhysicalAddress a := by
  have hself : SelfMapped twoTables.mem twoTables.cr3 := ⟨rfl, rfl⟩
  have hentry : ∀ i, i < 1023 → (twoTables.mem twoTables.cr3 i).present = true →
      i < 2 ∧ (twoTables.mem twoTables.cr3 i).address = 7 + i := by
    intro i hi hpresent
    have hmem : twoTables.mem twoTables.cr3 i = if i < 2 then System.identityEntry (7 + i) else .zero := by
      show (if i = 1023 then _ else _) = _
      rw [if_neg (by omega)]
    rw [hmem] at hpresent ⊢
    split at hpresent
    · rename_i hlt
      rw [if_pos hlt]
      exact ⟨hlt, rfl⟩
    · cases hpresent
  have hdistinct : DistinctTables twoTables.mem twoTables.cr3 := by
    refine ⟨fun i hi hpresent => ?_, fun i j hi hj hpi hpj heq => ?_⟩
    · rw [(hentry i hi hpresent).2]
      show 7 + i ≠ 6
      omega
    · rw [(hentry i hi hpi).2, (hentry j hj hpj).2] at heq
      omega
  exact (recursive_mapping twoTables 1029 hself hdistinct (by decide) rfl).2.1 5 false 0 (by decide)

end DBolOS.Paging
