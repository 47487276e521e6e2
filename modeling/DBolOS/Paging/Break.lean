import DBolOS.Paging.Elf
import DBolOS.Paging.Stale

/-!
# The program break

`elf_load_process` returns the end of the section that its loop loaded last, and what the variable held before where it
loaded none.  It is past the image exactly when that section is the highest of the table and ends in a page that was
mapped (`breakPastImage_iff`); the pages mapped are counted from the entry point on and from the sum of the sizes.
-/

namespace DBolOS.Elf

open Paging

namespace File

/-- Whether the loop loads the section of a header. -/
def loads (f : File) (header : Nat) : Bool :=
  decide (f.size header ≠ 0) && f.occupiesMemory header &&
    (decide (f.type header = programData) || decide (f.type header = bss))

/-- The headers of the sections that are loaded from index `i` on, with `n` indices left. -/
def loadedFrom (f : File) (i n : Nat) : List Nat :=
  (((List.range' i n).map f.headerAt).takeWhile fun header => decide (header < f.len)).filter f.loads

/-- The headers of the sections that are loaded, in the order of the table. -/
def loaded (f : File) : List Nat := f.loadedFrom 0 f.shnum

/-- The address behind a section. -/
def sectionEnd (f : File) (header : Nat) : Nat := f.virtualAddress header + f.size header

/-- An address behind every section that is loaded, and right behind one of them, in a page that was mapped. -/
structure PastImage (f : File) (programBreak : Nat) : Prop where
  attained : ∃ header ∈ f.loaded, f.sectionEnd header = programBreak
  above : ∀ header ∈ f.loaded, f.sectionEnd header ≤ programBreak
  mapped : f.Mapped (programBreak / PAGE_SIZE)

end File

/-- An access that does not fault: nothing is mapped at `NULL`, and below the kernel only what was mapped for the
process. -/
def Access.Completes (f : File) : Access → Prop
  | .read _ _ => True
  | .null => False
  | .write address n => ∀ k < n, 0xC0000000 ≤ (address + k) % 2 ^ 32 ∨ f.Mapped ((address + k) % 2 ^ 32 / PAGE_SIZE)

def Load.Completes (l : Load) (f : File) : Prop := ∀ a ∈ l.accesses, a.Completes f

/-- Every header of the table is one of the file, and every section is loaded to pages that are mapped. -/
structure File.Completes (f : File) : Prop where
  headers : ∀ i < f.shnum, f.headerAt i < f.len
  sections : ∀ header ∈ f.loaded, (Access.write (f.virtualAddress header) (f.size header)).Completes f

/-- The program break is past the image, whatever the variable held before: a load that comes to its end with a value
other than zero returns the highest end of a section, and one with no section to load comes to its end with a value
that does not depend on what the variable held. -/
structure BreakPastImage (s : Space) (f : File) (isKernelMode lastPage : Bool) : Prop where
  past : ∀ stale l s', elfLoadProcess s f stale isKernelMode lastPage = some (l, s') → l.Completes f →
    l.programBreak ≠ 0 → f.PastImage l.programBreak
  defined : f.loaded = [] → ∃ programBreak, ∀ stale l s',
    elfLoadProcess s f stale isKernelMode lastPage = some (l, s') → l.Completes f ∧ l.programBreak = programBreak

/-- Some section is loaded, and where all go to mapped pages the last of them is the highest, and ends below 4 GiB in a
page that is mapped, or right at 4 GiB, which makes the program break zero. -/
def File.LastIsHighest (f : File) : Prop :=
  ∃ last, f.loaded.getLast? = some last ∧ (f.Completes → f.sectionEnd last % 2 ^ 32 = 0 ∨
    f.sectionEnd last < 2 ^ 32 ∧ (∀ header ∈ f.loaded, f.sectionEnd header ≤ f.sectionEnd last) ∧
      f.Mapped (f.sectionEnd last / PAGE_SIZE))

variable {s s' : Space} {f : File} {stale : Nat} {isKernelMode lastPage : Bool} {l : Load}

namespace File

variable {header i n programBreak : Nat}

/-! ### The loop over the sections -/

/-- What one section does to the program break, and where it writes. -/
private theorem loadSection_spec (f : File) (header programBreak : Nat) :
    (f.loadSection header programBreak).1 =
        (if f.loads header then Pmm.add32 (f.virtualAddress header) (f.size header) else programBreak) ∧
      ((∀ a ∈ (f.loadSection header programBreak).2, a.Completes f) ↔
        (f.loads header = true → (Access.write (f.virtualAddress header) (f.size header)).Completes f)) := by
  have hread : ∀ offset n, (Access.read offset n).Completes f := fun _ _ => trivial
  have hne : bss ≠ programData := by decide
  unfold loadSection loads
  by_cases hsize : f.size header = 0
  · simp [hsize, hread]
  by_cases hoccupies : f.occupiesMemory header = true
  · by_cases hdata : f.type header = programData
    · simp [hsize, hoccupies, hdata, hread]
    · by_cases hbss : f.type header = bss
      · simp [hsize, hoccupies, hbss, hne, hread]
      · simp [hsize, hoccupies, hdata, hbss, hread]
  · simp [hsize, hoccupies, hread]

private theorem loadedFrom_succ (f : File) (i n : Nat) : f.loadedFrom i (n + 1) =
    if f.headerAt i < f.len then
      if f.loads (f.headerAt i) then f.headerAt i :: f.loadedFrom (i + 1) n else f.loadedFrom (i + 1) n
    else [] := by
  unfold loadedFrom
  rw [List.range'_succ, List.map_cons, List.takeWhile_cons]
  by_cases hin : f.headerAt i < f.len
  · simp [hin, List.filter_cons]
  · simp [hin]

/-- The program break is behind the section that was loaded last. -/
private theorem sectionsLoop_break (f : File) (n i programBreak : Nat) : (f.sectionsLoop n i programBreak).1 =
    ((f.loadedFrom i n).getLast?.map fun last => f.sectionEnd last % 2 ^ 32).getD programBreak := by
  induction n generalizing i programBreak with
  | zero => rfl
  | succ n ih =>
    rw [loadedFrom_succ]
    unfold sectionsLoop
    rw [elfGetIndexedSectionHeader_eq]
    by_cases hin : f.headerAt i < f.len
    · rw [if_pos hin, if_pos hin]
      dsimp only
      rw [ih, (f.loadSection_spec (f.headerAt i) programBreak).1]
      by_cases hloads : f.loads (f.headerAt i) = true
      · rw [if_pos hloads, if_pos hloads, List.getLast?_cons]
        cases (f.loadedFrom (i + 1) n).getLast? with
        | none => rfl
        | some last => rfl
      · rw [if_neg hloads, if_neg hloads]
    · rw [if_neg hin, if_neg hin]
      rfl

/-- The loop comes to its end when the headers are there and the sections are written to mapped pages. -/
private theorem sectionsLoop_completes (f : File) (n i programBreak : Nat) :
    (∀ a ∈ (f.sectionsLoop n i programBreak).2, a.Completes f) ↔
      (∀ j, i ≤ j → j < i + n → f.headerAt j < f.len) ∧
        ∀ header ∈ f.loadedFrom i n, (Access.write (f.virtualAddress header) (f.size header)).Completes f := by
  induction n generalizing i programBreak with
  | zero =>
    simp only [sectionsLoop, loadedFrom, List.range'_zero, List.map_nil, List.takeWhile_nil, List.filter_nil,
      List.not_mem_nil, false_imp_iff, implies_true, and_true, true_iff]
    omega
  | succ n ih =>
    rw [loadedFrom_succ]
    unfold sectionsLoop
    rw [elfGetIndexedSectionHeader_eq]
    by_cases hin : f.headerAt i < f.len
    · have hheaders : (∀ j, i ≤ j → j < i + (n + 1) → f.headerAt j < f.len) ↔
          ∀ j, i + 1 ≤ j → j < i + 1 + n → f.headerAt j < f.len := by
        refine ⟨fun h j hlo hhi => h j (by omega) (by omega), fun h j hlo hhi => ?_⟩
        rcases Nat.eq_or_lt_of_le hlo with rfl | hlt
        · exact hin
        · exact h j hlt (by omega)
      rw [if_pos hin, if_pos hin, hheaders]
      dsimp only
      rw [List.forall_mem_append, (f.loadSection_spec (f.headerAt i) programBreak).2, ih]
      by_cases hloads : f.loads (f.headerAt i) = true
      · rw [if_pos hloads, List.forall_mem_cons]
        exact ⟨fun h => ⟨h.2.1, h.1 hloads, h.2.2⟩, fun h => ⟨fun _ => h.2.1, h.1, h.2.2⟩⟩
      · rw [if_neg hloads]
        exact ⟨fun h => h.2, fun h => ⟨fun hloaded => absurd hloaded hloads, h⟩⟩
    · rw [if_neg hin, if_neg hin]
      simp only [List.forall_mem_singleton]
      exact iff_of_false id fun h => hin (h.1 i (Nat.le_refl i) (by omega))

private theorem loadSections_break (f : File) (stale : Nat) : (f.loadSections stale).1 =
    (f.loaded.getLast?.map fun last => f.sectionEnd last % 2 ^ 32).getD stale :=
  f.sectionsLoop_break f.shnum 0 stale

private theorem loadSections_completes (f : File) (stale : Nat) :
    (∀ a ∈ (f.loadSections stale).2, a.Completes f) ↔ f.Completes := by
  unfold loadSections
  rw [sectionsLoop_completes]
  simp only [Nat.zero_le, true_imp_iff, Nat.zero_add]
  exact ⟨fun h => ⟨h.1, h.2⟩, fun h => ⟨h.headers, h.sections⟩⟩

private theorem sizeLoop_completes (f : File) (n i size : Nat) : ∀ a ∈ (f.sizeLoop n i size).2, a.Completes f := by
  induction n generalizing i size with
  | zero => simp [sizeLoop]
  | succ n ih =>
    unfold sizeLoop
    cases f.elfGetIndexedSectionHeader i with
    | none => simp
    | some header =>
      dsimp only
      split
      · intro a ha
        rcases List.mem_cons.1 ha with rfl | ha
        · trivial
        rcases List.mem_cons.1 ha with rfl | ha
        · trivial
        · exact ih _ _ a ha
      · intro a ha
        rcases List.mem_cons.1 ha with rfl | ha
        · trivial
        · exact ih _ _ a ha

end File

/-! ### The pages that are mapped -/

/-- In the space that a creation builds for the file, the pages counted as mapped are mapped. -/
theorem File.Mapped.translate {c : Space.Creation} {d : Supply c s.pmm} (h : Ready s c d)
    (himage : c.image = f.image stale) {q : Nat} (hq : f.Mapped q) :
    ∃ frame, Paging.translate (d.loadMem s.mem s.currHeapEnd) d.directory q = some frame := by
  have huser := h.user
  unfold UserPages at huser
  have hloads : c.image.Loads q := by
    rw [himage]
    exact hq
  have hstart : Space.stackStart = 0xBFEFF := rfl
  have hbelow : q < 0xC0000 := by
    obtain hin | hin := hloads <;> omega
  have hin : (d.loadMem s.mem s.currHeapEnd d.directory (q / 1024)).present = true ∧
      (d.loadMem s.mem s.currHeapEnd d.table (q % 1024)).present = true := by
    obtain ⟨hlo, hhi⟩ | ⟨hlo, hhi⟩ := hloads
    · rw [← d.image_length] at hhi
      exact ⟨userMem_present h.loadable_stack (.inl (userMem_present h.loadable_image (.inr ⟨q, hlo, hhi, rfl⟩))),
        userMem_table_present h.loadable_stack
          (.inl (userMem_table_present h.loadable_image (.inr ⟨q, hlo, hhi, rfl⟩)))⟩
    · rw [← d.stack_length] at hhi
      exact ⟨userMem_present h.loadable_stack (.inr ⟨q, hlo, hhi, rfl⟩),
        userMem_table_present h.loadable_stack (.inr ⟨q, hlo, hhi, rfl⟩)⟩
  have hpoints := h.loadMem_pointsTo (by omega) (h.stale q hloads) hin.1
  exact ⟨_, translate_eq_some.2 ⟨hin.1, by rw [hpoints]; exact hin.2, rfl⟩⟩

/-! ### The load -/

/-- Where the pages can be allocated the load returns what its loop leaves. -/
private theorem elfLoadProcess_of_allocates (hallocates : allocates s (f.image 0) isKernelMode = some true)
    (stale : Nat) (lastPage : Bool) :
    ∃ s', elfLoadProcess s f stale isKernelMode lastPage = some (⟨(f.loadSections stale).1,
      .read 0 sizeofHdr :: f.elfGetSizeInMem.2 ++ (f.loadSections stale).2⟩, s') := by
  obtain ⟨⟨tables, s₁⟩, htables, h⟩ := Option.bind_eq_some_iff.1 hallocates
  obtain ⟨phys, hphys, h⟩ := Option.bind_eq_some_iff.1 h
  obtain ⟨⟨allocated, s₂⟩, himage, h⟩ := Option.bind_eq_some_iff.1 h
  cases allocated with
  | false => cases h
  | true =>
    obtain ⟨⟨allocated, s₃⟩, hstack, h⟩ := Option.bind_eq_some_iff.1 h
    cases h
    refine ⟨s₃, Option.bind_eq_some_iff.2 ⟨(tables, s₁), htables, Option.bind_eq_some_iff.2 ⟨phys, hphys,
      Option.bind_eq_some_iff.2 ⟨(true, s₂), himage, Option.bind_eq_some_iff.2 ⟨(true, s₃), hstack, rfl⟩⟩⟩⟩⟩

/-- The load comes to its end when the loop over the sections does. -/
private theorem completes_iff {sections : List Access} (f : File) (programBreak : Nat) :
    (Load.mk programBreak (.read 0 sizeofHdr :: f.elfGetSizeInMem.2 ++ sections)).Completes f ↔
      ∀ a ∈ sections, a.Completes f := by
  unfold Load.Completes
  rw [List.cons_append, List.forall_mem_cons, List.forall_mem_append]
  exact ⟨fun h => h.2.2, fun h => ⟨trivial, f.sizeLoop_completes _ _ _, h⟩⟩

/-- The last of the sections decides where all of them can be loaded. -/
private theorem past_iff {last : Nat} (hlast : f.loaded.getLast? = some last) :
    (f.sectionEnd last % 2 ^ 32 ≠ 0 → f.PastImage (f.sectionEnd last % 2 ^ 32)) ↔
      f.sectionEnd last % 2 ^ 32 = 0 ∨ f.sectionEnd last < 2 ^ 32 ∧
        (∀ header ∈ f.loaded, f.sectionEnd header ≤ f.sectionEnd last) ∧ f.Mapped (f.sectionEnd last / PAGE_SIZE) := by
  have hmem : last ∈ f.loaded := List.mem_of_getLast? hlast
  constructor
  · intro h
    by_cases hzero : f.sectionEnd last % 2 ^ 32 = 0
    · exact .inl hzero
    · obtain ⟨-, habove, hmapped⟩ := h hzero
      -- no section ends above, so this one does not wrap
      have hlt : f.sectionEnd last < 2 ^ 32 := by
        have := habove last hmem
        omega
      rw [Nat.mod_eq_of_lt hlt] at habove hmapped
      exact .inr ⟨hlt, habove, hmapped⟩
  · intro h hne
    obtain hzero | ⟨hlt, habove, hmapped⟩ := h
    · exact absurd hzero hne
    · rw [Nat.mod_eq_of_lt hlt]
      exact ⟨⟨last, hmem, rfl⟩, habove, hmapped⟩

/-- The program break is past the image exactly when the pages cannot be allocated, or the section loaded last is the
highest one. -/
theorem breakPastImage_iff (s : Space) (f : File) (isKernelMode lastPage : Bool) :
    BreakPastImage s f isKernelMode lastPage ↔
      (allocates s (f.image 0) isKernelMode = some true → f.LastIsHighest) := by
  constructor
  · intro h hallocates
    cases hlast : f.loaded.getLast? with
    | none =>
      -- nothing is loaded, and the variable keeps what it held
      have hbreak : ∀ stale, (f.loadSections stale).1 = stale := by
        intro stale
        rw [f.loadSections_break, hlast]
        rfl
      obtain ⟨v, hv⟩ := h.defined (List.getLast?_eq_none_iff.1 hlast)
      obtain ⟨s₀, hload₀⟩ := elfLoadProcess_of_allocates hallocates 0 lastPage
      obtain ⟨s₁, hload₁⟩ := elfLoadProcess_of_allocates hallocates 1 lastPage
      have hzero : (f.loadSections 0).1 = v := (hv 0 _ _ hload₀).2
      have hone : (f.loadSections 1).1 = v := (hv 1 _ _ hload₁).2
      rw [hbreak] at hzero hone
      omega
    | some last =>
      refine ⟨last, hlast, fun hcompletes => (past_iff hlast).1 fun hne => ?_⟩
      obtain ⟨s', hload⟩ := elfLoadProcess_of_allocates hallocates 0 lastPage
      have hbreak : (f.loadSections 0).1 = f.sectionEnd last % 2 ^ 32 := by
        rw [f.loadSections_break, hlast]
        rfl
      rw [hbreak] at hload
      exact h.past 0 _ _ hload ((completes_iff f _).2 ((f.loadSections_completes 0).2 hcompletes)) hne
  · intro h
    by_cases hallocates : allocates s (f.image 0) isKernelMode = some true
    · obtain ⟨last, hlast, hlastIsHighest⟩ := h hallocates
      constructor
      · intro stale l s' hload hcompletes hne
        obtain ⟨s₁, hload₁⟩ := elfLoadProcess_of_allocates hallocates stale lastPage
        rw [hload, Option.some.injEq, Prod.mk.injEq] at hload₁
        obtain ⟨rfl, -⟩ := hload₁
        rw [completes_iff, f.loadSections_completes] at hcompletes
        have hbreak : (f.loadSections stale).1 = f.sectionEnd last % 2 ^ 32 := by
          rw [f.loadSections_break, hlast]
          rfl
        dsimp only at hne ⊢
        rw [hbreak] at hne ⊢
        exact (past_iff hlast).2 (hlastIsHighest hcompletes) hne
      · intro hnil
        rw [hnil] at hlast
        cases hlast
    · -- the pages cannot be allocated, and the load returns zero
      have hfailed : ∀ stale l s', elfLoadProcess s f stale isKernelMode lastPage = some (l, s') →
          l.Completes f ∧ l.programBreak = 0 := by
        intro stale l s' hload
        obtain ⟨allocated, hresult, haccesses, hzero⟩ := elfLoadProcess_accesses hload
        cases allocated with
        | true => exact absurd hresult hallocates
        | false =>
          refine ⟨?_, hzero rfl⟩
          have hcompletes := (completes_iff f l.programBreak).2 (List.forall_mem_nil (Access.Completes f))
          intro a ha
          rw [haccesses] at ha
          exact hcompletes a ha
      exact ⟨fun stale l s' hload _ hne => absurd (hfailed stale l s' hload).2 hne, fun _ => ⟨0, hfailed⟩⟩

/-! ### A section below the one before it -/

/-- Zeroes at `0x8048800` are loaded after data at `0x8049000`, and the data is behind the program break. -/
theorem not_breakPastImage : ¬ ∀ s f isKernelMode lastPage, File.elfIsValidAndLoadable f = true →
    BreakPastImage s f isKernelMode lastPage := by
  intro hall
  obtain ⟨s, -, -, -, hallocates⟩ := exists_load (f := smallFile 0x8049000) rfl
  obtain ⟨last, hlast, hhighest⟩ := (breakPastImage_iff s _ false false).1
    (hall s (smallFile 0x8049000) false false (by decide +kernel)) hallocates
  have hloaded : (smallFile 0x8049000).loaded = [52, 92] := by decide +kernel
  have hends : (smallFile 0x8049000).sectionEnd 52 = 0x8049800 ∧ (smallFile 0x8049000).sectionEnd 92 = 0x8049000 := by
    decide +kernel
  rw [hloaded] at hlast
  obtain rfl : 92 = last := Option.some.inj hlast
  have hfields : (smallFile 0x8049000).shnum = 2 ∧ (smallFile 0x8049000).headerAt 0 = 52 ∧
      (smallFile 0x8049000).headerAt 1 = 92 ∧ (smallFile 0x8049000).virtualAddress 52 = 0x8049000 ∧
      (smallFile 0x8049000).virtualAddress 92 = 0x8048800 ∧ (smallFile 0x8049000).size 52 = 0x800 ∧
      (smallFile 0x8049000).size 92 = 0x800 := by
    decide +kernel
  obtain ⟨hshnum, hfirst, hsecond, haddress, haddress', hsize, hsize'⟩ := hfields
  have hmapped : (smallFile 0x8049000).Mapped 0x8048 ∧ (smallFile 0x8049000).Mapped 0x8049 :=
    ⟨.inl (by decide +kernel), .inl (by decide +kernel)⟩
  have hlen : (smallFile 0x8049000).len = 0x1000 := rfl
  have hcompletes : (smallFile 0x8049000).Completes := by
    refine ⟨fun i hi => ?_, fun header hheader => ?_⟩
    · rcases (show i = 0 ∨ i = 1 by omega) with rfl | rfl <;> omega
    · rw [hloaded] at hheader
      rcases (show header = 52 ∨ header = 92 by simpa using hheader) with rfl | rfl
      · rw [haddress, hsize]
        refine fun k hk => .inr ?_
        rw [show (0x8049000 + k) % 2 ^ 32 / PAGE_SIZE = 0x8049 by unfold PAGE_SIZE; omega]
        exact hmapped.2
      · rw [haddress', hsize']
        refine fun k hk => .inr ?_
        rw [show (0x8048800 + k) % 2 ^ 32 / PAGE_SIZE = 0x8048 by unfold PAGE_SIZE; omega]
        exact hmapped.1
  obtain hzero | ⟨-, habove, -⟩ := hhighest hcompletes
  · rw [hends.2] at hzero
    omega
  · have := habove 52 (by rw [hloaded]; simp)
    omega

end DBolOS.Elf
