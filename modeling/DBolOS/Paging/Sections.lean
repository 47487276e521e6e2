import DBolOS.Paging.Elf

/-!
# The section headers of a file

What the header of index `i` is, and which of them count for the size in memory: the first ones that lie in the file.
`elf_get_indexed_section_header` narrows its index to 8 bits, adds in 32 bits and tests only where the header begins,
and the sizes are added in 32 bits.  Exactly when none of this matters are the headers and the size the right ones
(`addressed_iff`).
-/

namespace DBolOS.Elf

namespace File

variable {f : File} {i k n size : Nat}

/-! ### The sections of the file -/

/-- The offset of header `i`, where the whole header lies in the file. -/
def sectionAt (f : File) (i : Nat) : Option Nat :=
  if f.shoff + i * sizeofShdr + sizeofShdr ≤ f.len then some (f.shoff + i * sizeofShdr) else none

/-- The sections from index `i` on, of `n`, up to the first whose header does not lie in the file. -/
def sectionsFrom (f : File) (i n : Nat) : List Nat := (List.range' i n).takeWhile fun k => (f.sectionAt k).isSome

/-- What section `i` adds to the size. -/
def sizeOf (f : File) (i : Nat) : Nat :=
  let header := f.shoff + i * sizeofShdr
  if f.virtualAddress header ≠ 0 then f.size header else 0

def sizeInMem (f : File) : Nat := ((f.sectionsFrom 0 f.shnum).map f.sizeOf).sum

/-- The headers are found where they are, and the sections counted once each. -/
structure Addressed (f : File) : Prop where
  headers : ∀ i, i < f.shnum → f.elfGetIndexedSectionHeader i = f.sectionAt i
  size : f.elfGetSizeInMem.1 = f.sizeInMem

/-- What the code does not test. -/
structure Addressable (f : File) : Prop where
  /-- A header that begins in the file ends there. -/
  whole : ∀ i, i < f.shnum → i < 256 → f.shoff + i * sizeofShdr < f.len →
    f.shoff + i * sizeofShdr + sizeofShdr ≤ f.len
  /-- An offset that wraps does not come back into the file. -/
  wraps : ∀ i, i < f.shnum → i < 256 → 2 ^ 32 ≤ f.shoff + i * sizeofShdr → 2 ^ 32 + f.len ≤ f.shoff + i * sizeofShdr
  /-- A table with more headers than an 8-bit index can name does not begin in the file. -/
  narrow : 256 < f.shnum → f.len ≤ f.shoff
  sum : f.sizeInMem < 2 ^ 32

/-! ### The headers -/

private theorem sectionAt_eq_some {header : Nat} : f.sectionAt i = some header ↔
    f.shoff + i * sizeofShdr + sizeofShdr ≤ f.len ∧ f.shoff + i * sizeofShdr = header := by
  unfold sectionAt
  rw [Option.ite_none_right_eq_some, Option.some.injEq]

private theorem sectionAt_eq_none : f.sectionAt i = none ↔ f.len < f.shoff + i * sizeofShdr + sizeofShdr := by
  unfold sectionAt
  rw [ite_eq_right_iff]
  simp only [reduceCtorEq, imp_false, Nat.not_le]

private theorem headerAt_of_lt (h : i < 256) : f.headerAt i =
    if 2 ^ 32 ≤ f.shoff + i * sizeofShdr then f.shoff + i * sizeofShdr - 2 ^ 32 else f.shoff + i * sizeofShdr := by
  have hoff := f.u32_lt 32
  have hshoff : f.shoff = f.u32 32 := rfl
  unfold headerAt sizeofShdr
  rw [Nat.mod_eq_of_lt h]
  split <;> omega

/-- The header of an index of 8 bits is the right one when what the code does not test holds for it. -/
private theorem header_eq_iff (h : i < 256) : f.elfGetIndexedSectionHeader i = f.sectionAt i ↔
    (f.shoff + i * sizeofShdr < f.len → f.shoff + i * sizeofShdr + sizeofShdr ≤ f.len) ∧
      (2 ^ 32 ≤ f.shoff + i * sizeofShdr → 2 ^ 32 + f.len ≤ f.shoff + i * sizeofShdr) := by
  have hlen := f.len_le
  rw [elfGetIndexedSectionHeader_eq, headerAt_of_lt h]
  unfold sectionAt
  generalize f.shoff + i * sizeofShdr = start
  by_cases hwraps : 2 ^ 32 ≤ start
  · have hout : ¬ start + sizeofShdr ≤ f.len := by omega
    have hright : start < f.len → start + sizeofShdr ≤ f.len := fun hlt => by omega
    rw [if_pos hwraps, if_neg hout, ite_eq_right_iff]
    simp only [reduceCtorEq, imp_false, Nat.not_lt, hwraps, true_imp_iff]
    omega
  · have hstart : 2 ^ 32 ≤ start → 2 ^ 32 + f.len ≤ start := fun hle => absurd hle hwraps
    rw [if_neg hwraps, and_iff_left hstart]
    by_cases hin : start + sizeofShdr ≤ f.len
    · have hbegins : start < f.len := by
        unfold sizeofShdr at hin
        omega
      rw [if_pos hin, if_pos hbegins]
      exact iff_of_true rfl fun _ => hin
    · rw [if_neg hin, ite_eq_right_iff]
      simp only [reduceCtorEq, imp_false, hin]

private theorem header_mod (f : File) (i : Nat) :
    f.elfGetIndexedSectionHeader i = f.elfGetIndexedSectionHeader (i % 256) := by
  unfold elfGetIndexedSectionHeader headerAt
  rw [Nat.mod_mod]

/-- All headers are found where they are exactly when the first 256 are and no other begins in the file. -/
private theorem headers_iff : (∀ i, i < f.shnum → f.elfGetIndexedSectionHeader i = f.sectionAt i) ↔
    (∀ i, i < f.shnum → i < 256 → f.elfGetIndexedSectionHeader i = f.sectionAt i) ∧
      (256 < f.shnum → f.len ≤ f.shoff) := by
  constructor
  · intro hall
    refine ⟨fun i hi _ => hall i hi, fun hmany => ?_⟩
    by_contra hbegins
    -- header 256 is taken for header 0
    have hlen := f.len_le
    have hheader : f.headerAt 0 = f.shoff := by
      rw [headerAt_of_lt (by decide), Nat.zero_mul, Nat.add_zero, if_neg (by omega)]
    have hfirst := hall 256 hmany
    rw [header_mod, Nat.mod_self, elfGetIndexedSectionHeader_eq, hheader, if_pos (by omega)] at hfirst
    obtain ⟨-, heq⟩ := sectionAt_eq_some.1 hfirst.symm
    unfold sizeofShdr at heq
    omega
  · rintro ⟨hfirst, hmany⟩ i hi
    by_cases hlt : i < 256
    · exact hfirst i hi hlt
    · have hbegins := hmany (by omega)
      have hmod := hfirst (i % 256) (by omega) (by omega)
      have hnone : ∀ k, f.sectionAt k = none := fun k => by
        rw [sectionAt_eq_none]
        unfold sizeofShdr
        omega
      rw [header_mod, hmod, hnone, hnone]

/-! ### The size -/

/-- The loop counts the sections of the file, where their headers are found. -/
private theorem sizeLoop_eq (hheaders : ∀ k, i ≤ k → k < i + n → f.elfGetIndexedSectionHeader k = f.sectionAt k)
    (hsize : size < 2 ^ 32) :
    (f.sizeLoop n i size).1 = (size + ((f.sectionsFrom i n).map f.sizeOf).sum) % 2 ^ 32 := by
  induction n generalizing i size with
  | zero => exact (Nat.mod_eq_of_lt hsize).symm
  | succ n ih =>
    have hrest : ∀ k, i + 1 ≤ k → k < i + 1 + n → f.elfGetIndexedSectionHeader k = f.sectionAt k :=
      fun k hlo hhi => hheaders k (by omega) (by omega)
    unfold sizeLoop sectionsFrom
    rw [hheaders i (Nat.le_refl i) (by omega), List.range'_succ, List.takeWhile_cons]
    cases hsection : f.sectionAt i with
    | none => exact (Nat.mod_eq_of_lt hsize).symm
    | some header =>
      obtain ⟨-, rfl⟩ := sectionAt_eq_some.1 hsection
      dsimp only [Option.isSome_some]
      rw [if_pos rfl, List.map_cons, List.sum_cons, sizeOf]
      by_cases hzero : f.virtualAddress (f.shoff + i * sizeofShdr) = 0
      · rw [if_neg (not_not.2 hzero), if_neg (not_not.2 hzero), Nat.zero_add]
        exact ih hrest hsize
      · have hadd : Pmm.add32 size (f.size (f.shoff + i * sizeofShdr)) < 2 ^ 32 := Nat.mod_lt _ (by decide)
        rw [if_pos hzero, if_pos hzero]
        refine (ih hrest hadd).trans ?_
        unfold Pmm.add32 sectionsFrom
        rw [Nat.mod_add_mod, Nat.add_assoc]

private theorem size_eq (hheaders : ∀ i, i < f.shnum → f.elfGetIndexedSectionHeader i = f.sectionAt i) :
    f.elfGetSizeInMem.1 = f.sizeInMem % 2 ^ 32 := by
  have := @sizeLoop_eq f 0 f.shnum 0 (fun k _ hk => hheaders k (by omega)) (by decide)
  rwa [Nat.zero_add] at this

/-- The headers and the size of a file are the right ones exactly when it has nothing that the code does not test. -/
theorem addressed_iff (f : File) : f.Addressed ↔ f.Addressable := by
  constructor
  · rintro ⟨hheaders, hsize⟩
    obtain ⟨hfirst, hmany⟩ := headers_iff.1 hheaders
    refine ⟨fun i hi hlt => ((header_eq_iff hlt).1 (hfirst i hi hlt)).1,
      fun i hi hlt => ((header_eq_iff hlt).1 (hfirst i hi hlt)).2, hmany, ?_⟩
    rw [size_eq hheaders] at hsize
    rw [← hsize]
    exact Nat.mod_lt _ (by decide)
  · rintro ⟨hwhole, hwraps, hmany, hsum⟩
    have hheaders := headers_iff.2
      ⟨fun i hi hlt => (header_eq_iff hlt).2 ⟨hwhole i hi hlt, hwraps i hi hlt⟩, hmany⟩
    exact ⟨hheaders, by rw [size_eq hheaders, Nat.mod_eq_of_lt hsum]⟩

/-! ### A table of 257 headers -/

/-- A file that is all zeros behind the words of its header, with room for 257 section headers. -/
def manySections : File where
  byte := fun offset => UInt8.ofNat
    ([0x464c457f, 0, 0, 0, 0x30002, 1, 0x8048000, 0, 52, 0, 0x200034, 0x280000, 257].getD (offset / 4) 0 /
      2 ^ (8 * (offset % 4)))
  len := 52 + 257 * 40
  len_le := by omega

/-- The header of index 256 is the one of index 0. -/
theorem manySections_not_addressed : sizeofHdr ≤ manySections.len ∧ manySections.elfIsValidAndLoadable = true ∧
    256 < manySections.shnum ∧ manySections.elfGetIndexedSectionHeader 256 = some 52 ∧ ¬ manySections.Addressed := by
  have hshnum : manySections.shnum = 257 := by decide +kernel
  have hshoff : manySections.shoff = 52 := by decide +kernel
  refine ⟨by decide, by decide +kernel, by omega, by decide +kernel, fun haddressed => ?_⟩
  have hfirst := haddressed.headers 256 (by omega)
  rw [show manySections.elfGetIndexedSectionHeader 256 = some 52 by decide +kernel] at hfirst
  obtain ⟨-, heq⟩ := sectionAt_eq_some.1 hfirst.symm
  unfold sizeofShdr at heq
  omega

end File

end DBolOS.Elf
