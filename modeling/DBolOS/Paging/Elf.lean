import DBolOS.Paging.Boot

/-!
# Loading an ELF file

`parser.c` and the accesses of `elf_load_process`, byte by byte.  Nothing bounds what a section header says: the load
is confined to the file and to the pages it mapped exactly when the section table of the file is well formed
(`confined_iff`).
-/

namespace DBolOS.Elf

open Paging

/-- A file in memory.  `byte` reads at an offset from `elf_content`, past the end of the file too.  The buffer is one
of the kernel heap, which begins above `0xC0000000`. -/
structure File where
  byte : Nat → UInt8
  len : Nat
  len_le : len ≤ 0x40000000

/-- What `elf_load_process` does to memory: it reads `n` bytes at an offset from `elf_content`, reads a field of a
section header that is `NULL`, or writes `n` bytes at an address. -/
inductive Access
  | read (offset n : Nat)
  | null
  | write (address n : Nat)

def sizeofHdr : Nat := 52

def sizeofShdr : Nat := 40

/-- `elf_section_header_type_program_data` and `elf_section_header_type_bss`. -/
def programData : Nat := 1

def bss : Nat := 8

namespace File

/-! ### Headers -/

def u8 (f : File) (offset : Nat) : Nat := (f.byte (offset % 2 ^ 32)).toNat

def u16 (f : File) (offset : Nat) : Nat := f.u8 offset + 2 ^ 8 * f.u8 (offset + 1)

def u32 (f : File) (offset : Nat) : Nat := f.u16 offset + 2 ^ 16 * f.u16 (offset + 2)

def entry (f : File) : Nat := f.u32 24

def shoff (f : File) : Nat := f.u32 32

def shnum (f : File) : Nat := f.u16 48

def elfIsValidAndLoadable (f : File) : Bool :=
  if f.len < sizeofHdr then false
  else if f.entry = 0 then false
  else if f.u8 0 ≠ 0x7f ∨ f.u8 1 ≠ 0x45 ∨ f.u8 2 ≠ 0x4c ∨ f.u8 3 ≠ 0x46 then false
  else true

/-- The offset of a section header.  The index is an `uint8_t`, and the sum wraps. -/
def headerAt (f : File) (index : Nat) : Nat := (f.shoff + index % 256 * sizeofShdr) % 2 ^ 32

/-- The offset of a section header, `none` for `NULL`. -/
def elfGetIndexedSectionHeader (f : File) (index : Nat) : Option Nat :=
  if f.len ≤ f.headerAt index then none else some (f.headerAt index)

/-! ### Fields of the section header at an offset -/

def type (f : File) (header : Nat) : Nat := f.u32 (header + 4)

def occupiesMemory (f : File) (header : Nat) : Bool := f.u8 (header + 8) / 2 % 2 = 1

def virtualAddress (f : File) (header : Nat) : Nat := f.u32 (header + 12)

def fileOffset (f : File) (header : Nat) : Nat := f.u32 (header + 16)

def size (f : File) (header : Nat) : Nat := f.u32 (header + 20)

/-! ### Loading -/

/-- The loop of `elf_get_size_in_mem` from index `i`, with `n` indices left and `size` counted so far. -/
def sizeLoop (f : File) : Nat → Nat → Nat → Nat × List Access
  | 0, _, size => (size, [])
  | n + 1, i, size =>
    match f.elfGetIndexedSectionHeader i with
    | none => (size, [])
    | some header =>
      if f.virtualAddress header ≠ 0 then
        let (result, accesses) := f.sizeLoop n (i + 1) (Pmm.add32 size (f.size header))
        (result, .read (header + 12) 4 :: .read (header + 20) 4 :: accesses)
      else
        let (result, accesses) := f.sizeLoop n (i + 1) size
        (result, .read (header + 12) 4 :: accesses)

def elfGetSizeInMem (f : File) : Nat × List Access := f.sizeLoop f.shnum 0 0

/-- The body of the loop that loads the sections. -/
def loadSection (f : File) (header programBreak : Nat) : Nat × List Access :=
  let address := f.virtualAddress header
  let size := f.size header
  if size = 0 then (programBreak, [.read (header + 20) 4])
  else if !f.occupiesMemory header then (programBreak, [.read (header + 20) 4, .read (header + 8) 1])
  else if f.type header = programData then
    (Pmm.add32 address size,
      [.read (header + 20) 4, .read (header + 8) 1, .read (header + 4) 4, .read (header + 12) 8,
        .read (f.fileOffset header) size, .write address size])
  else if f.type header = bss then
    (Pmm.add32 address size,
      [.read (header + 20) 4, .read (header + 8) 1, .read (header + 4) 4, .read (header + 12) 4, .write address size])
  else (programBreak, [.read (header + 20) 4, .read (header + 8) 1, .read (header + 4) 4])

/-- The loop over the sections; it ends at a header that is `NULL`. -/
def sectionsLoop (f : File) : Nat → Nat → Nat → Nat × List Access
  | 0, _, programBreak => (programBreak, [])
  | n + 1, i, programBreak =>
    match f.elfGetIndexedSectionHeader i with
    | none => (programBreak, [.null])
    | some header =>
      let (programBreak, first) := f.loadSection header programBreak
      let (result, rest) := f.sectionsLoop n (i + 1) programBreak
      (result, first ++ rest)

/-- The sections loaded, where `program_break` holds `stale` before the first. -/
def loadSections (f : File) (stale : Nat) : Nat × List Access := f.sectionsLoop f.shnum 0 stale

end File

/-- What a call of `elf_load_process` returns, and its accesses in order. -/
structure Load where
  programBreak : Nat
  accesses : List Access

def elfLoadProcess (s : Space) (f : File) (stale : Nat) (isKernelMode lastPage : Bool) : Option (Load × Space) :=
  let (processSize, reads) := f.elfGetSizeInMem
  let reads := .read 0 sizeofHdr :: reads
  do
    let (processPageTables, s) ← s.kmallocPages (processSize / PAGE_SIZE / PAGES_PER_DIR + 1)
    let tables ← s.getPhysicalPage (processPageTables.getD 0)
    let pageTablesPhysAddr := tables * PAGE_SIZE
    let (allocated, s) ← s.allocateMultiplePages (f.entry / PAGE_SIZE) (processSize / PAGE_SIZE + 2) isKernelMode
      pageTablesPhysAddr
    if !allocated then do
      let s ← (if processPageTables.isSome then s.kfree lastPage else some s)
      some (⟨0, reads⟩, s)
    else do
      let (allocated, s) ← s.allocateMultiplePages (USER_STACK_TOP / PAGE_SIZE - DEFAULT_STACK_PAGE_AMOUNT)
        DEFAULT_STACK_PAGE_AMOUNT isKernelMode pageTablesPhysAddr
      if !allocated then do
        let s ← Space.deallocatePages (processSize / PAGE_SIZE + 1) (f.entry / PAGE_SIZE) s
        let s ← (if processPageTables.isSome then s.kfree lastPage else some s)
        some (⟨0, reads⟩, s)
      else
        let (programBreak, sections) := f.loadSections stale
        some (⟨programBreak, reads ++ sections⟩, s)

/-! ### The pages -/

/-- What the paging of a load depends on. -/
def File.image (f : File) (stale : Nat) : Space.Image where
  entry := f.entry
  size := f.elfGetSizeInMem.1
  programBreak := (f.loadSections stale).1

/-- Whether both calls of `allocate_multiple_pages` succeed in the state `s`. -/
def allocates (s : Space) (image : Space.Image) (isKernelMode : Bool) : Option Bool := do
  let (processPageTables, s) ← s.kmallocPages image.tableCount
  let tables ← s.getPhysicalPage (processPageTables.getD 0)
  let (allocated, s) ← s.allocateMultiplePages image.start image.pageCount isKernelMode (tables * PAGE_SIZE)
  if !allocated then some false
  else do
    let (allocated, _) ← s.allocateMultiplePages Space.stackStart DEFAULT_STACK_PAGE_AMOUNT isKernelMode
      (tables * PAGE_SIZE)
    some allocated

variable {s s' : Space} {f : File} {stale : Nat} {isKernelMode lastPage : Bool} {l : Load}

/-- A load changes the address space as `Space.elfLoadProcess` says. -/
private theorem elfLoadProcess_space (s : Space) (f : File) (stale : Nat) (isKernelMode lastPage : Bool) :
    (elfLoadProcess s f stale isKernelMode lastPage).map (fun r => (decide (r.1.programBreak ≠ 0), r.2)) =
      s.elfLoadProcess (f.image stale) isKernelMode lastPage := by
  simp only [elfLoadProcess, Space.elfLoadProcess, Option.bind_eq_bind, Option.map_bind]
  refine Option.bind_congr fun ⟨tables, s₁⟩ _ => ?_
  dsimp only
  refine (Option.map_bind ..).trans (Option.bind_congr fun phys _ => ?_)
  refine (Option.map_bind ..).trans (Option.bind_congr fun ⟨allocated, s₂⟩ _ => ?_)
  cases allocated with
  | false =>
    refine (Option.map_bind ..).trans ?_
    cases tables with
    | none => rfl
    | some page => cases s₂.kfree lastPage <;> rfl
  | true =>
    refine (Option.map_bind ..).trans (Option.bind_congr fun ⟨allocated, s₃⟩ _ => ?_)
    cases allocated with
    | false =>
      refine (Option.map_bind ..).trans (Option.bind_congr fun s₄ _ => ?_)
      refine (Option.map_bind ..).trans ?_
      cases tables with
      | none => rfl
      | some page => cases s₄.kfree lastPage <;> rfl
    | true => rfl

/-- What a load accesses: the section data only where both calls of `allocate_multiple_pages` succeed. -/
theorem elfLoadProcess_accesses (h : elfLoadProcess s f stale isKernelMode lastPage = some (l, s')) :
    ∃ allocated, allocates s (f.image stale) isKernelMode = some allocated ∧
      l.accesses = .read 0 sizeofHdr :: f.elfGetSizeInMem.2 ++ (if allocated then (f.loadSections stale).2 else []) ∧
      (allocated = false → l.programBreak = 0) := by
  obtain ⟨⟨tables, s₁⟩, htables, h⟩ := Option.bind_eq_some_iff.1 h
  obtain ⟨phys, hphys, h⟩ := Option.bind_eq_some_iff.1 h
  obtain ⟨⟨allocated, s₂⟩, himage, h⟩ := Option.bind_eq_some_iff.1 h
  have hallocates : allocates s (f.image stale) isKernelMode =
      if !allocated then some false
      else (s₂.allocateMultiplePages Space.stackStart DEFAULT_STACK_PAGE_AMOUNT isKernelMode (phys * PAGE_SIZE)).bind
        fun r => some r.1 := by
    unfold allocates
    simp only [Option.bind_eq_bind]
    rw [show s.kmallocPages (f.image stale).tableCount = some (tables, s₁) from htables]
    dsimp only [Option.bind_some]
    rw [hphys]
    dsimp only [Option.bind_some]
    rw [show s₁.allocateMultiplePages (f.image stale).start (f.image stale).pageCount isKernelMode
      (phys * PAGE_SIZE) = some (allocated, s₂) from himage]
    rfl
  rw [hallocates]
  cases allocated with
  | false =>
    obtain ⟨s₃, -, h⟩ := Option.bind_eq_some_iff.1 h
    cases h
    exact ⟨false, rfl, (List.append_nil _).symm, fun _ => rfl⟩
  | true =>
    obtain ⟨⟨allocated, s₃⟩, hstack, h⟩ := Option.bind_eq_some_iff.1 h
    have hstack : s₂.allocateMultiplePages Space.stackStart DEFAULT_STACK_PAGE_AMOUNT isKernelMode
      (phys * PAGE_SIZE) = some (allocated, s₃) := hstack
    rw [hstack]
    cases allocated with
    | false =>
      obtain ⟨s₄, -, h⟩ := Option.bind_eq_some_iff.1 h
      obtain ⟨s₅, -, h⟩ := Option.bind_eq_some_iff.1 h
      cases h
      exact ⟨false, rfl, (List.append_nil _).symm, fun _ => rfl⟩
    | true =>
      cases h
      exact ⟨true, rfl, rfl, fun hfalse => by cases hfalse⟩

/-! ### Confinement -/

/-- The pages that the two calls of `allocate_multiple_pages` map. -/
def File.Mapped (f : File) (page : Nat) : Prop :=
  (f.image 0).start ≤ page ∧ page < (f.image 0).start + (f.image 0).pageCount ∨
    Space.stackStart ≤ page ∧ page < Space.stackStart + DEFAULT_STACK_PAGE_AMOUNT

/-- Every byte read is one of the file, every byte written lies below `0xC0000000` in a page mapped for the process,
and no `NULL` header is used. -/
def Access.Confined (f : File) : Access → Prop
  | .read offset n => ∀ k < n, (offset + k) % 2 ^ 32 < f.len
  | .null => False
  | .write address n =>
    ∀ k < n, (address + k) % 2 ^ 32 < 0xC0000000 ∧ f.Mapped ((address + k) % 2 ^ 32 / PAGE_SIZE)

def Load.Confined (l : Load) (f : File) : Prop := ∀ a ∈ l.accesses, a.Confined f

/-- The header at an offset, the data of its section, and the addresses it is loaded to are what a load needs. -/
structure File.SectionLoadable (f : File) (header : Nat) : Prop where
  inside : header + 24 ≤ f.len
  data : f.size header ≠ 0 → f.occupiesMemory header = true → f.type header = programData →
    f.fileOffset header + f.size header ≤ f.len
  address : f.size header ≠ 0 → f.occupiesMemory header = true →
    f.type header = programData ∨ f.type header = bss →
    f.virtualAddress header + f.size header ≤ 0xC0000000 ∧
      ∀ page, f.virtualAddress header / PAGE_SIZE ≤ page →
        page ≤ (f.virtualAddress header + f.size header - 1) / PAGE_SIZE → f.Mapped page

/-- Every section of the table is loadable. -/
def File.Loadable (f : File) : Prop := ∀ i < f.shnum, f.SectionLoadable (f.headerAt i)

/-- The headers that `elf_get_size_in_mem` reads, up to the first that begins past the end, lie in the file as far as
they are read. -/
def File.SizeReadable (f : File) : Prop :=
  ∀ i < f.shnum, (∀ j ≤ i, f.headerAt j < f.len) →
    f.headerAt i + 16 ≤ f.len ∧ (f.virtualAddress (f.headerAt i) ≠ 0 → f.headerAt i + 24 ≤ f.len)

/-! ### Fields -/

namespace File

variable {header i n : Nat}

private theorem u16_lt (f : File) (offset : Nat) : f.u16 offset < 2 ^ 16 := by
  have hlo := (f.byte (offset % 2 ^ 32)).toNat_lt
  have hhi := (f.byte ((offset + 1) % 2 ^ 32)).toNat_lt
  unfold u16 u8
  omega

theorem u32_lt (f : File) (offset : Nat) : f.u32 offset < 2 ^ 32 := by
  have hlo := f.u16_lt offset
  have hhi := f.u16_lt (offset + 2)
  unfold u32
  omega

private theorem read_confined_iff (f : File) (offset : Nat) {n : Nat} (hoffset : offset < 2 ^ 32) (hn : n ≠ 0) :
    (Access.read offset n).Confined f ↔ offset + n ≤ f.len := by
  have hlen := f.len_le
  constructor
  · intro h
    by_contra hout
    by_cases hstart : offset < f.len
    · -- the first byte past the end
      have := h (f.len - offset) (by omega)
      omega
    · have := h 0 (by omega)
      omega
  · intro hin k hk
    omega

/-- A range of addresses lies below the kernel and in mapped pages. -/
private theorem write_confined_iff (f : File) (address : Nat) {n : Nat} (haddress : address < 2 ^ 32) (hn : n ≠ 0) :
    (Access.write address n).Confined f ↔ address + n ≤ 0xC0000000 ∧
      ∀ page, address / PAGE_SIZE ≤ page → page ≤ (address + n - 1) / PAGE_SIZE → f.Mapped page := by
  constructor
  · intro h
    have hbelow : address + n ≤ 0xC0000000 := by
      by_contra hout
      by_cases hstart : address < 0xC0000000
      · have := (h (0xC0000000 - address) (by omega)).1
        omega
      · have := (h 0 (by omega)).1
        omega
    refine ⟨hbelow, fun page hlo hhi => ?_⟩
    unfold PAGE_SIZE at hlo hhi
    -- a byte of the page
    obtain ⟨k, hk, hpage⟩ : ∃ k < n, (address + k) % 2 ^ 32 / PAGE_SIZE = page := by
      unfold PAGE_SIZE
      by_cases hfirst : page = address / 0x1000
      · exact ⟨0, by omega, by omega⟩
      · exact ⟨page * 0x1000 - address, by omega, by omega⟩
    exact hpage ▸ (h k hk).2
  · rintro ⟨hbelow, hmapped⟩ k hk
    refine ⟨by omega, hmapped _ ?_ ?_⟩
    · exact Nat.div_le_div_right (by omega)
    · exact Nat.div_le_div_right (by omega)

theorem elfGetIndexedSectionHeader_eq (f : File) (i : Nat) :
    f.elfGetIndexedSectionHeader i = if f.headerAt i < f.len then some (f.headerAt i) else none := by
  unfold elfGetIndexedSectionHeader
  by_cases h : f.headerAt i < f.len
  · rw [if_neg (by omega), if_pos h]
  · rw [if_pos (by omega), if_neg h]

/-- A field of a header lies in the file. -/
private theorem field_le (h : header + 24 ≤ f.len) (offset n : Nat) (hle : offset + n ≤ 24) :
    header + offset + n ≤ f.len := by
  omega

private theorem loadSection_confined_iff (h : header < 2 ^ 32 - 24) (programBreak : Nat) :
    (∀ a ∈ (f.loadSection header programBreak).2, a.Confined f) ↔ f.SectionLoadable header := by
  have hsize := read_confined_iff f (header + 20) (n := 4) (by omega) (by omega)
  have hflags := read_confined_iff f (header + 8) (n := 1) (by omega) (by omega)
  have htype := read_confined_iff f (header + 4) (n := 4) (by omega) (by omega)
  have haddress := read_confined_iff f (header + 12) (n := 4) (by omega) (by omega)
  have hplace := read_confined_iff f (header + 12) (n := 8) (by omega) (by omega)
  have hne : programData ≠ bss := by decide
  unfold loadSection
  dsimp only
  by_cases hzero : f.size header = 0
  · simp only [hzero, if_true, List.forall_mem_singleton, hsize]
    exact ⟨fun hin => ⟨hin, fun hne => absurd hzero hne, fun hne => absurd hzero hne⟩, fun hl => hl.inside⟩
  have hdata := read_confined_iff f (f.fileOffset header) (f.u32_lt _) hzero
  have hwrite := write_confined_iff f (f.virtualAddress header) (f.u32_lt _) hzero
  rw [if_neg hzero]
  by_cases hoccupies : f.occupiesMemory header = true
  · rw [hoccupies, Bool.not_true, if_neg (by decide)]
    by_cases hprogram : f.type header = programData
    · rw [if_pos hprogram]
      simp only [List.forall_mem_cons, List.not_mem_nil, false_imp_iff, implies_true, and_true, hsize, hflags, htype,
        hplace, hdata, hwrite]
      constructor
      · rintro ⟨hin, -, -, -, hdata, hwrite⟩
        exact ⟨hin, fun _ _ _ => hdata, fun _ _ _ => hwrite⟩
      · rintro ⟨hin, hdata, hwrite⟩
        exact ⟨hin, field_le hin 8 1 (by decide), field_le hin 4 4 (by decide), field_le hin 12 8 (by decide),
          hdata hzero hoccupies hprogram, hwrite hzero hoccupies (.inl hprogram)⟩
    · rw [if_neg hprogram]
      by_cases hbss : f.type header = bss
      · rw [if_pos hbss]
        simp only [List.forall_mem_cons, List.not_mem_nil, false_imp_iff, implies_true, and_true, hsize, hflags, htype,
          haddress, hwrite]
        constructor
        · rintro ⟨hin, -, -, -, hwrite⟩
          exact ⟨hin, fun _ _ hdata => absurd hdata hprogram, fun _ _ _ => hwrite⟩
        · rintro ⟨hin, -, hwrite⟩
          exact ⟨hin, field_le hin 8 1 (by decide), field_le hin 4 4 (by decide), field_le hin 12 4 (by decide),
            hwrite hzero hoccupies (.inr hbss)⟩
      · rw [if_neg hbss]
        simp only [List.forall_mem_cons, List.not_mem_nil, false_imp_iff, implies_true, and_true, hsize, hflags, htype]
        constructor
        · rintro ⟨hin, -, -⟩
          exact ⟨hin, fun _ _ hdata => absurd hdata hprogram, fun _ _ htypes => absurd htypes (not_or.2 ⟨hprogram, hbss⟩)⟩
        · rintro ⟨hin, -, -⟩
          exact ⟨hin, field_le hin 8 1 (by decide), field_le hin 4 4 (by decide)⟩
  · have hfree : f.occupiesMemory header = false := by simpa using hoccupies
    rw [hfree, Bool.not_false, if_pos rfl]
    simp only [List.forall_mem_cons, List.not_mem_nil, false_imp_iff, implies_true, and_true, hsize, hflags]
    constructor
    · rintro ⟨hin, -⟩
      exact ⟨hin, fun _ hocc => absurd hocc hoccupies, fun _ hocc => absurd hocc hoccupies⟩
    · rintro ⟨hin, -, -⟩
      exact ⟨hin, field_le hin 8 1 (by decide)⟩

/-- The loop over the sections is confined when every section is loadable. -/
private theorem sectionsLoop_confined_iff (n i programBreak : Nat) :
    (∀ a ∈ (f.sectionsLoop n i programBreak).2, a.Confined f) ↔
      ∀ j, i ≤ j → j < i + n → f.SectionLoadable (f.headerAt j) := by
  have hlen := f.len_le
  induction n generalizing i programBreak with
  | zero =>
    simp only [sectionsLoop, List.not_mem_nil, false_imp_iff, implies_true, true_iff]
    omega
  | succ n ih =>
    simp only [sectionsLoop, elfGetIndexedSectionHeader_eq]
    by_cases hin : f.headerAt i < f.len
    · rw [if_pos hin]
      simp only [List.forall_mem_append, loadSection_confined_iff (show f.headerAt i < 2 ^ 32 - 24 by omega), ih]
      constructor
      · rintro ⟨hfirst, hrest⟩ j hlo hhi
        rcases Nat.eq_or_lt_of_le hlo with rfl | hlt
        · exact hfirst
        · exact hrest j hlt (by omega)
      · intro hall
        exact ⟨hall i (Nat.le_refl i) (by omega), fun j hlo hhi => hall j (by omega) (by omega)⟩
    · rw [if_neg hin]
      simp only [List.forall_mem_singleton]
      refine iff_of_false id fun hall => ?_
      have := (hall i (Nat.le_refl i) (by omega)).inside
      omega

/-- The loop that counts the size is confined when the headers it reads lie in the file. -/
private theorem sizeLoop_confined_iff (n i size : Nat) :
    (∀ a ∈ (f.sizeLoop n i size).2, a.Confined f) ↔
      ∀ j, i ≤ j → j < i + n → (∀ k, i ≤ k → k ≤ j → f.headerAt k < f.len) →
        f.headerAt j + 16 ≤ f.len ∧ (f.virtualAddress (f.headerAt j) ≠ 0 → f.headerAt j + 24 ≤ f.len) := by
  have hlen := f.len_le
  induction n generalizing i size with
  | zero =>
    simp only [sizeLoop, List.not_mem_nil, false_imp_iff, implies_true, true_iff]
    omega
  | succ n ih =>
    simp only [sizeLoop, elfGetIndexedSectionHeader_eq]
    by_cases hin : f.headerAt i < f.len
    · rw [if_pos hin]
      have haddress := read_confined_iff f (f.headerAt i + 12) (n := 4) (by omega) (by omega)
      have hsize := read_confined_iff f (f.headerAt i + 20) (n := 4) (by omega) (by omega)
      -- the first header, then the others
      have hsplit : (∀ j, i ≤ j → j < i + (n + 1) → (∀ k, i ≤ k → k ≤ j → f.headerAt k < f.len) →
          f.headerAt j + 16 ≤ f.len ∧ (f.virtualAddress (f.headerAt j) ≠ 0 → f.headerAt j + 24 ≤ f.len)) ↔
          (f.headerAt i + 16 ≤ f.len ∧ (f.virtualAddress (f.headerAt i) ≠ 0 → f.headerAt i + 24 ≤ f.len)) ∧
          ∀ j, i + 1 ≤ j → j < i + 1 + n → (∀ k, i + 1 ≤ k → k ≤ j → f.headerAt k < f.len) →
            f.headerAt j + 16 ≤ f.len ∧ (f.virtualAddress (f.headerAt j) ≠ 0 → f.headerAt j + 24 ≤ f.len) := by
        constructor
        · intro hall
          refine ⟨hall i (Nat.le_refl i) (by omega) fun k hlo hhi => ?_, fun j hlo hhi hbefore => ?_⟩
          · rwa [show k = i by omega]
          · refine hall j (by omega) (by omega) fun k hk hkj => ?_
            rcases Nat.eq_or_lt_of_le hk with rfl | hlt
            · exact hin
            · exact hbefore k hlt hkj
        · rintro ⟨hfirst, hrest⟩ j hlo hhi hbefore
          rcases Nat.eq_or_lt_of_le hlo with rfl | hlt
          · exact hfirst
          · exact hrest j hlt (by omega) fun k hk hkj => hbefore k (by omega) hkj
      rw [hsplit]
      dsimp only
      by_cases hzero : f.virtualAddress (f.headerAt i) = 0
      · rw [if_neg (not_not.2 hzero)]
        simp only [List.forall_mem_cons, haddress, ih]
        refine and_congr_left fun _ => ⟨fun h => ⟨h, fun hne => absurd hzero hne⟩, fun h => h.1⟩
      · rw [if_pos hzero]
        simp only [List.forall_mem_cons, haddress, hsize, ih, ← and_assoc]
        refine and_congr_left fun _ => ⟨fun h => ⟨h.1, fun _ => h.2⟩, fun h => ⟨h.1, h.2 hzero⟩⟩
    · rw [if_neg hin]
      simp only [List.not_mem_nil, false_imp_iff, implies_true, true_iff]
      intro j hlo _ hbefore
      exact absurd (hbefore i (Nat.le_refl i) hlo) hin

private theorem Loadable.sizeReadable (h : f.Loadable) : f.SizeReadable := by
  intro i hi _
  have := (h i hi).inside
  exact ⟨by omega, fun _ => this⟩

end File

/-- A load of an accepted file is confined exactly when, where its pages can be allocated, every section of its table
is loadable, and otherwise the headers read to count the size lie in the file. -/
theorem confined_iff (hvalid : f.elfIsValidAndLoadable = true)
    (h : elfLoadProcess s f stale isKernelMode lastPage = some (l, s')) :
    l.Confined f ↔ (allocates s (f.image stale) isKernelMode = some true → f.Loadable) ∧
      (allocates s (f.image stale) isKernelMode = some false → f.SizeReadable) := by
  obtain ⟨allocated, hallocates, haccesses, -⟩ := elfLoadProcess_accesses h
  have hheader : (Access.read 0 sizeofHdr).Confined f := by
    have hlen : sizeofHdr ≤ f.len := by
      unfold File.elfIsValidAndLoadable at hvalid
      by_contra hshort
      rw [if_pos (by omega)] at hvalid
      cases hvalid
    exact (File.read_confined_iff f 0 (by omega) (by decide)).2 (by omega)
  have hsize : (∀ a ∈ f.elfGetSizeInMem.2, a.Confined f) ↔ f.SizeReadable := by
    unfold File.elfGetSizeInMem
    rw [File.sizeLoop_confined_iff]
    unfold File.SizeReadable
    simp only [Nat.zero_le, Nat.zero_add, true_imp_iff]
  have hsections : (∀ a ∈ (f.loadSections stale).2, a.Confined f) ↔ f.Loadable := by
    unfold File.loadSections
    rw [File.sectionsLoop_confined_iff]
    unfold File.Loadable
    simp only [Nat.zero_le, Nat.zero_add, true_imp_iff]
  unfold Load.Confined
  rw [haccesses, hallocates]
  cases allocated with
  | false =>
    simp only [Bool.false_eq_true, if_false, List.append_nil, List.forall_mem_cons, hheader, true_and, hsize,
      Option.some.injEq, false_imp_iff, true_imp_iff]
  | true =>
    simp only [if_true, List.cons_append, List.forall_mem_cons, List.forall_mem_append, hheader, true_and, hsize,
      hsections, true_imp_iff, Option.some.injEq, Bool.true_eq_false, false_imp_iff, and_true]
    exact ⟨fun h => h.2, fun h => ⟨h.sizeReadable, h⟩⟩

/-! ### A file with two sections -/

/-- The words of the headers: a section of data loaded at `address`, and a section of zeroes. -/
def smallWords (address : Nat) : List Nat :=
  [0x464c457f, 0, 0, 0, 0x30002, 1, 0x8048000, 0, 52, 0, 0x200034, 0x280000, 2,
    0, programData, 2, address, 132, 0x800, 0, 0, 1, 0,
    0, bss, 2, 0x8048800, 0, 0x800, 0, 0, 1, 0]

def smallFile (address : Nat) : File where
  byte := fun offset => UInt8.ofNat ((smallWords address).getD (offset / 4) 0 / 2 ^ (8 * (offset % 4)))
  len := 0x1000
  len_le := by omega

/-- On `bigMachine` the pages of a small image can be allocated. -/
private theorem exists_elfLoadProcess_bigMachine :
    ∃ s s', Space.elfLoadProcess s smallCreation.image false false = some (true, s') := by
  obtain ⟨t, -, d, hready, -⟩ := exists_ready_bigMachine
  obtain ⟨p₁, -, hrest⟩ := Pmm.takeFrames_append d.taken d.node_length
  obtain ⟨p₂, -, hrest⟩ := Pmm.takeFrames_append hrest d.kernelStack_length
  obtain ⟨p₃, -, hrest⟩ := Pmm.takeFrames_append hrest rfl
  exact ⟨_, _, hready.elfLoadProcess_eq 0 false hrest⟩

theorem exists_load {f : File} (himage : f.image 0 = smallCreation.image) :
    ∃ s l s', elfLoadProcess s f 0 false false = some (l, s') ∧ allocates s (f.image 0) false = some true := by
  obtain ⟨s, s', hload⟩ := exists_elfLoadProcess_bigMachine
  rw [← himage, ← elfLoadProcess_space, Option.map_eq_some_iff] at hload
  obtain ⟨⟨l, s₁⟩, hload, heq⟩ := hload
  obtain ⟨hbreak, -⟩ := Prod.mk.inj heq
  obtain ⟨allocated, hallocates, -, hfailed⟩ := elfLoadProcess_accesses hload
  cases allocated with
  | true => exact ⟨s, l, s₁, hload, hallocates⟩
  | false => exact absurd (hfailed rfl) (of_decide_eq_true hbreak)

private theorem smallFile_fields : (smallFile 0x8048000).shnum = 2 ∧ (smallFile 0x8048000).headerAt 0 = 52 ∧
    (smallFile 0x8048000).headerAt 1 = 92 ∧ (smallFile 0x8048000).virtualAddress 52 = 0x8048000 ∧
    (smallFile 0x8048000).virtualAddress 92 = 0x8048800 ∧ (smallFile 0x8048000).size 52 = 0x800 ∧
    (smallFile 0x8048000).size 92 = 0x800 ∧ (smallFile 0x8048000).fileOffset 52 = 132 ∧
    (smallFile 0x8048000).type 92 = bss := by
  decide +kernel

private theorem smallFile_loadable : (smallFile 0x8048000).Loadable := by
  obtain ⟨hshnum, hfirst, hsecond, haddress, haddress', hsize, hsize', hoffset, htype⟩ := smallFile_fields
  have hlen : (smallFile 0x8048000).len = 0x1000 := rfl
  have hmapped : (smallFile 0x8048000).Mapped 0x8048 := .inl (by decide +kernel)
  intro i hi
  rw [hshnum] at hi
  rcases (show i = 0 ∨ i = 1 by omega) with rfl | rfl
  · rw [hfirst]
    refine ⟨by omega, fun _ _ _ => by omega, fun _ _ _ => ⟨by omega, fun page hlo hhi => ?_⟩⟩
    rw [haddress] at hlo hhi
    rw [hsize] at hhi
    unfold PAGE_SIZE at hlo hhi
    rwa [show page = 0x8048 by omega]
  · rw [hsecond]
    refine ⟨by omega, fun _ _ hdata => ?_, fun _ _ _ => ⟨by omega, fun page hlo hhi => ?_⟩⟩
    · rw [htype] at hdata
      cases hdata
    · rw [haddress'] at hlo hhi
      rw [hsize'] at hhi
      unfold PAGE_SIZE at hlo hhi
      rwa [show page = 0x8048 by omega]

/-- The section with data, loaded where the process has its pages. -/
theorem confined_iff_smallFile : ∃ s l s', elfLoadProcess s (smallFile 0x8048000) 0 false false = some (l, s') ∧
    (l.Confined (smallFile 0x8048000) ↔
      (allocates s ((smallFile 0x8048000).image 0) false = some true → (smallFile 0x8048000).Loadable) ∧
        (allocates s ((smallFile 0x8048000).image 0) false = some false → (smallFile 0x8048000).SizeReadable)) ∧
    l.Confined (smallFile 0x8048000) := by
  obtain ⟨s, l, s', hload, hallocates⟩ := exists_load (f := smallFile 0x8048000) rfl
  have hiff := confined_iff (by decide +kernel) hload
  refine ⟨s, l, s', hload, hiff, hiff.2 ⟨fun _ => smallFile_loadable, fun hfalse => ?_⟩⟩
  rw [hallocates] at hfalse
  cases hfalse

/-- The section with data, loaded over the kernel. -/
theorem not_confined : ¬ ∀ s f stale isKernelMode lastPage l s', File.elfIsValidAndLoadable f = true →
    elfLoadProcess s f stale isKernelMode lastPage = some (l, s') → l.Confined f := by
  intro hall
  obtain ⟨s, l, s', hload, hallocates⟩ := exists_load (f := smallFile 0xC0100000) rfl
  have hconfined := hall s _ 0 false false l s' (by decide +kernel) hload
  obtain ⟨allocated, hallocates', haccesses, -⟩ := elfLoadProcess_accesses hload
  rw [hallocates, Option.some.injEq] at hallocates'
  subst hallocates'
  have hshnum : 0 < (smallFile 0xC0100000).shnum := by decide +kernel
  have hsections : ∀ a ∈ ((smallFile 0xC0100000).loadSections 0).2, a.Confined (smallFile 0xC0100000) := by
    intro a ha
    apply hconfined
    rw [haccesses, if_pos rfl]
    exact List.mem_append_right _ ha
  have hloadable := (File.sectionsLoop_confined_iff _ _ _).1 hsections 0 (Nat.le_refl 0) (by omega)
  have hbelow := (hloadable.address (by decide +kernel) (by decide +kernel) (.inl (by decide +kernel))).1
  have habove : 0xC0000000 < (smallFile 0xC0100000).virtualAddress ((smallFile 0xC0100000).headerAt 0) := by
    decide +kernel
  omega

end DBolOS.Elf
