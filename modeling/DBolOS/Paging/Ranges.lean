import DBolOS.Paging.Directory

/-!
# Ranges of pages

What `allocate_multiple_pages` stores for a range below the recursive entry, with any address of a table for the new
entries of the directory.  Page `q` is written to one slot, the entry `q % 1024` of its table; two pages whose tables
are the same frame may share a slot, and the later one overwrites it then (`rangeMem_slot`).
-/

namespace DBolOS.Paging

open Pmm (PmmInfo pmmAllocatePage takeFrames)

variable {mem : Memory} {s s' : Space} {c tables v w q n i g j f : Nat} {p p' : PmmInfo} {onlyKernelMode : Bool}
  {fs : List Nat}

/-- The frame of the table for page `w`: the one there is, or the one that is entered for it. -/
def tableOf (mem : Memory) (c tables w : Nat) : Nat := (tableFor mem c w tables).address

/-- The frame and index of the entry for page `w`. -/
def slot (mem : Memory) (c tables w : Nat) : Nat × Nat := (tableOf mem c tables w, w % 1024)

/-- One of the `n` pages from `v` on has entry `j` of the directory. -/
def Touched (v n j : Nat) : Prop := ∃ q, v ≤ q ∧ q < v + n ∧ q / 1024 = j

/-- The range ends below the recursive entry, and its tables are not the directory. -/
structure Plain (mem : Memory) (c tables v n : Nat) : Prop where
  self : SelfMapped mem c
  pages : v + n ≤ 0xFFC00
  apart : ∀ q, v ≤ q → q < v + n → tableOf mem c tables q ≠ c

/-- The memory after page `v` is mapped to frame `f`. -/
def pageMem (mem : Memory) (c tables : Nat) (onlyKernelMode : Bool) (v f : Nat) : Memory :=
  mapInto mem c v (tableFor mem c v tables) f onlyKernelMode

/-- The memory after the pages from `v` on are mapped to the frames `fs`. -/
def rangeMem (mem : Memory) (c tables : Nat) (onlyKernelMode : Bool) : Nat → List Nat → Memory
  | _, [] => mem
  | v, f :: fs => rangeMem (pageMem mem c tables onlyKernelMode v f) c tables onlyKernelMode (v + 1) fs

theorem not_touched_zero : ¬ Touched v 0 j := by
  rintro ⟨q, hlo, hhi, -⟩
  omega

theorem touched_succ : Touched v (n + 1) j ↔ v / 1024 = j ∨ Touched (v + 1) n j := by
  constructor
  · rintro ⟨q, hlo, hhi, hj⟩
    rcases Nat.eq_or_lt_of_le hlo with rfl | hlt
    · exact .inl hj
    · exact .inr ⟨q, hlt, by omega, hj⟩
  · rintro (hj | ⟨q, hlo, hhi, hj⟩)
    · exact ⟨v, Nat.le_refl v, by omega, hj⟩
    · exact ⟨q, by omega, by omega, hj⟩

/-! ### Tables -/

/-- The table depends on the entry of the directory only. -/
theorem tableFor_congr (hvw : v / 1024 = w / 1024) : tableFor mem c v tables = tableFor mem c w tables := by
  have hhalf : RELOCATION_OFFSET / PAGE_SIZE ≤ v ↔ RELOCATION_OFFSET / PAGE_SIZE ≤ w := by
    show 0xC0000 ≤ v ↔ 0xC0000 ≤ w
    omega
  unfold tableFor Space.newTable PAGES_PER_TABLE
  dsimp only
  rw [hvw]
  simp only [hhalf]

theorem tableFor_of_present (h : (mem c (v / 1024)).present = true) : tableFor mem c v tables = mem c (v / 1024) := if_pos h

theorem tableOf_of_present (h : (mem c (v / 1024)).present = true) : tableOf mem c tables v = (mem c (v / 1024)).address := by
  unfold tableOf
  rw [tableFor_of_present h]

theorem slot_eq_slot : slot mem c tables v = slot mem c tables w ↔
    tableOf mem c tables v = tableOf mem c tables w ∧ v % 1024 = w % 1024 := by
  unfold slot
  rw [Prod.mk.injEq]

/-! ### One page -/

/-- The entries of the directory keep their tables and get one for page `v`. -/
theorem pageMem_directory (hne : tableOf mem c tables v ≠ c) (j : Nat) :
    (pageMem mem c tables onlyKernelMode v f c j).present = (decide (v / 1024 = j) || (mem c j).present) ∧
      (pageMem mem c tables onlyKernelMode v f c j).address =
        if v / 1024 = j then tableOf mem c tables v else (mem c j).address := by
  unfold pageMem mapInto
  by_cases hj : j = v / 1024
  · rw [if_pos ⟨rfl, hj⟩, if_pos hj.symm, decide_eq_true hj.symm, Bool.true_or]
    exact ⟨tableFor_present _ _ _ _, rfl⟩
  · have hj' : ¬ v / 1024 = j := fun heq => hj heq.symm
    rw [if_neg fun hand => hj hand.2, if_neg fun hand => hne hand.1.symm, if_neg hj', decide_eq_false hj', Bool.false_or]
    exact ⟨rfl, rfl⟩

/-- The entry of page `v` in its table. -/
theorem pageMem_slot (hne : tableOf mem c tables v ≠ c) :
    pageMem mem c tables onlyKernelMode v f (tableOf mem c tables v) (v % 1024) =
      Space.mapped f onlyKernelMode (mem (tableOf mem c tables v) (v % 1024)) := by
  unfold pageMem mapInto
  rw [if_neg fun hand => hne hand.1]
  exact if_pos ⟨rfl, rfl⟩

/-- The other entries of the tables. -/
theorem pageMem_of_ne (hg : g ≠ c) (hslot : slot mem c tables v ≠ (g, j)) :
    pageMem mem c tables onlyKernelMode v f g j = mem g j := by
  unfold pageMem mapInto
  rw [if_neg fun hand => hg hand.1, if_neg]
  rintro ⟨hgt, hj⟩
  exact hslot (Prod.ext hgt.symm hj.symm)

/-- The tables stay what they were, or were to be. -/
private theorem tableOf_pageMem (hne : tableOf mem c tables v ≠ c) (w : Nat) :
    tableOf (pageMem mem c tables onlyKernelMode v f) c tables w = tableOf mem c tables w := by
  obtain ⟨hpresent, haddress⟩ := @pageMem_directory mem c tables v f onlyKernelMode hne (w / 1024)
  by_cases hvw : v / 1024 = w / 1024
  · rw [decide_eq_true hvw, Bool.true_or] at hpresent
    rw [if_pos hvw] at haddress
    rw [tableOf_of_present hpresent, haddress]
    unfold tableOf
    rw [tableFor_congr hvw]
  · rw [decide_eq_false hvw, Bool.false_or] at hpresent
    rw [if_neg hvw] at haddress
    by_cases hw : (mem c (w / 1024)).present = true
    · rw [tableOf_of_present (hpresent.trans hw), tableOf_of_present hw, haddress]
    · unfold tableOf tableFor
      rw [if_neg hw, if_neg (by rwa [hpresent])]

private theorem slot_pageMem (hne : tableOf mem c tables v ≠ c) (w : Nat) :
    slot (pageMem mem c tables onlyKernelMode v f) c tables w = slot mem c tables w := by
  unfold slot
  rw [tableOf_pageMem hne]

private theorem Plain.mono (h : Plain mem c tables v n) (hi : i ≤ n) : Plain mem c tables v i :=
  ⟨h.self, by have := h.pages; omega, fun q hlo hhi => h.apart q hlo (by omega)⟩

theorem Plain.head (h : Plain mem c tables v (n + 1)) : tableOf mem c tables v ≠ c :=
  h.apart v (Nat.le_refl v) (by omega)

theorem Plain.next (h : Plain mem c tables v (n + 1)) (onlyKernelMode : Bool) (f : Nat) :
    Plain (pageMem mem c tables onlyKernelMode v f) c tables (v + 1) n := by
  have hpages := h.pages
  have hlast : ¬ v / 1024 = 1023 := by omega
  obtain ⟨hpresent, haddress⟩ := @pageMem_directory mem c tables v f onlyKernelMode h.head 1023
  rw [decide_eq_false hlast, Bool.false_or, h.self.present] at hpresent
  rw [if_neg hlast, h.self.self] at haddress
  refine ⟨⟨hpresent, haddress⟩, by omega, ?_⟩
  intro q hlo hhi
  rw [tableOf_pageMem h.head]
  exact h.apart q (by omega) (by omega)

/-! ### All pages -/

/-- The directory behind the loop. -/
theorem rangeMem_directory (h : Plain mem c tables v fs.length) :
    ((rangeMem mem c tables onlyKernelMode v fs c j).present = true ↔
        (mem c j).present = true ∨ Touched v fs.length j) ∧
      ((mem c j).present = true → (rangeMem mem c tables onlyKernelMode v fs c j).address = (mem c j).address) ∧
      ∀ w, tableOf (rangeMem mem c tables onlyKernelMode v fs) c tables w = tableOf mem c tables w := by
  induction fs generalizing mem v with
  | nil => exact ⟨(or_iff_left not_touched_zero).symm, fun _ => rfl, fun _ => rfl⟩
  | cons f fs ih =>
    obtain ⟨hpresent, haddress⟩ := @pageMem_directory mem c tables v f onlyKernelMode h.head j
    obtain ⟨hiff, hkept, htable⟩ := ih (h.next onlyKernelMode f)
    refine ⟨?_, ?_, fun w => (htable w).trans (tableOf_pageMem h.head w)⟩
    · rw [List.length_cons, touched_succ]
      refine hiff.trans ?_
      rw [hpresent, Bool.or_eq_true, decide_eq_true_eq]
      tauto
    · intro hj
      refine (hkept (by rw [hpresent, hj, Bool.or_true])).trans ?_
      rw [haddress]
      split
      · rename_i hvj
        rw [← hvj] at hj ⊢
        exact tableOf_of_present hj
      · rfl

/-- The directory maps itself still. -/
theorem rangeMem_self (h : Plain mem c tables v fs.length) :
    SelfMapped (rangeMem mem c tables onlyKernelMode v fs) c := by
  obtain ⟨hiff, hkept, -⟩ := @rangeMem_directory mem c tables v 1023 onlyKernelMode fs h
  exact ⟨hiff.2 (.inl h.self.present), (hkept h.self.present).trans h.self.self⟩

/-- Only the slots of the pages change in the tables. -/
theorem rangeMem_of_ne (h : Plain mem c tables v fs.length) (hg : g ≠ c)
    (hslot : ∀ q, v ≤ q → q < v + fs.length → slot mem c tables q ≠ (g, j)) :
    rangeMem mem c tables onlyKernelMode v fs g j = mem g j := by
  induction fs generalizing mem v with
  | nil => rfl
  | cons f fs ih =>
    rw [List.length_cons] at hslot
    refine (ih (h.next onlyKernelMode f) ?_).trans (pageMem_of_ne hg (hslot v (Nat.le_refl v) (by omega)))
    intro q hlo hhi
    rw [slot_pageMem h.head]
    exact hslot q (by omega) (by omega)

/-- A slot holds the frame of the last page that it belongs to. -/
theorem rangeMem_slot (h : Plain mem c tables v fs.length) (hi : fs[i]? = some f)
    (hlast : ∀ k, i < k → k < fs.length → slot mem c tables (v + k) ≠ slot mem c tables (v + i)) :
    (rangeMem mem c tables onlyKernelMode v fs (tableOf mem c tables (v + i)) ((v + i) % 1024)).present = true ∧
      (rangeMem mem c tables onlyKernelMode v fs (tableOf mem c tables (v + i)) ((v + i) % 1024)).address = bits20 f ∧
      (rangeMem mem c tables onlyKernelMode v fs (tableOf mem c tables (v + i)) ((v + i) % 1024)).userSupervisor =
        !onlyKernelMode := by
  induction fs generalizing mem v i with
  | nil => cases hi
  | cons f' fs ih =>
    have hnext := h.next onlyKernelMode f'
    cases i with
    | zero =>
      cases hi
      rw [Nat.add_zero] at hlast ⊢
      have hsame : rangeMem (pageMem mem c tables onlyKernelMode v f) c tables onlyKernelMode (v + 1) fs
          (tableOf mem c tables v) (v % 1024) =
          pageMem mem c tables onlyKernelMode v f (tableOf mem c tables v) (v % 1024) := by
        refine rangeMem_of_ne hnext h.head ?_
        intro q hlo hhi
        rw [slot_pageMem h.head]
        have := hlast (q - v) (by omega) (by rw [List.length_cons]; omega)
        rwa [Nat.add_sub_of_le (by omega)] at this
      unfold rangeMem
      rw [hsame, pageMem_slot h.head]
      exact ⟨rfl, rfl, rfl⟩
    | succ i =>
      have hrest := ih hnext hi ?_
      · rw [tableOf_pageMem h.head, Nat.add_assoc, Nat.add_comm 1 i] at hrest
        exact hrest
      · intro k hik hk
        rw [slot_pageMem h.head, slot_pageMem h.head]
        have := hlast (k + 1) (by omega) (by rw [List.length_cons]; omega)
        rwa [show v + (k + 1) = v + 1 + k by omega, show v + (i + 1) = v + 1 + i by omega] at this

namespace Space

/-! ### The loop -/

private theorem pagingMapPage_range (h : SelfMapped s.mem s.cr3) (hv : v < 0xFFC00)
    (hne : tableOf s.mem s.cr3 tables v ≠ s.cr3)
    (f : Nat) (onlyKernelMode : Bool) : s.pagingMapPage f v onlyKernelMode tables =
      some { s with mem := pageMem s.mem s.cr3 tables onlyKernelMode v f } :=
  pagingMapPage_eq h (by omega) f onlyKernelMode tables hne

/-- The loop over the pages for which there are frames. -/
private theorem allocateLoop_add (onlyKernelMode : Bool) {start m : Nat} (h : Plain s.mem s.cr3 tables (start + i) m)
    (hfs : takeFrames m s.pmm = some (fs, p)) (n : Nat) :
    allocateLoop start onlyKernelMode tables (m + n) i s = allocateLoop start onlyKernelMode tables n (i + m)
      { s with mem := rangeMem s.mem s.cr3 tables onlyKernelMode (start + i) fs, pmm := p } := by
  induction m generalizing s fs i with
  | zero =>
    cases hfs
    rw [Nat.zero_add]
    rfl
  | succ m ih =>
    obtain ⟨f, p₁, fs', hf, hne, hfs', rfl⟩ := Pmm.takeFrames_succ.1 hfs
    have hpages := h.pages
    have hmap := pagingMapPage_range (s := { s with pmm := p₁ }) h.self (by omega) h.head f onlyKernelMode
    have hrest := @ih { s with mem := pageMem s.mem s.cr3 tables onlyKernelMode (start + i) f, pmm := p₁ } (i + 1) fs'
      (h.next onlyKernelMode f) hfs'
    rw [Nat.add_assoc i 1 m, Nat.add_comm 1 m] at hrest
    rw [Nat.add_right_comm m 1 n]
    refine Eq.trans ?_ hrest
    conv_lhs => unfold allocateLoop
    simp only [hf, Option.bind_eq_bind, Option.bind_some, hne, if_false, hmap]

theorem allocateMultiplePages_true (onlyKernelMode : Bool) {start : Nat} (h : Plain s.mem s.cr3 tables start n)
    (hfs : takeFrames n s.pmm = some (fs, p)) : s.allocateMultiplePages start n onlyKernelMode tables =
      some (true, { s with mem := rangeMem s.mem s.cr3 tables onlyKernelMode start fs, pmm := p }) :=
  allocateLoop_add (i := 0) onlyKernelMode h hfs 0

/-- Where the frames run out after `i` pages, these are deallocated again. -/
theorem allocateMultiplePages_false (onlyKernelMode : Bool) {start : Nat} (h : Plain s.mem s.cr3 tables start i)
    (hfs : takeFrames i s.pmm = some (fs, p)) (hi : i < n) (hout : pmmAllocatePage p = some (0, p')) :
    s.allocateMultiplePages start n onlyKernelMode tables = (deallocatePages i start
      { s with mem := rangeMem s.mem s.cr3 tables onlyKernelMode start fs, pmm := p' }).map fun s => (false, s) := by
  obtain ⟨m, rfl⟩ : ∃ m, n = i + (m + 1) := ⟨n - i - 1, by omega⟩
  unfold allocateMultiplePages
  rw [allocateLoop_add (i := 0) onlyKernelMode h hfs, Nat.zero_add]
  unfold allocateLoop
  simp only [hout, Option.bind_eq_bind, Option.bind_some, if_true, Option.map_eq_bind]
  rfl

/-- Where the loop returns after more pages, the next call of the frame manager returns. -/
theorem allocateMultiplePages_next (onlyKernelMode : Bool) {start : Nat} {r : Bool}
    (h : Plain s.mem s.cr3 tables start i) (hfs : takeFrames i s.pmm = some (fs, p)) (hi : i < n)
    (hs : s.allocateMultiplePages start n onlyKernelMode tables = some (r, s')) :
    ∃ f p', pmmAllocatePage p = some (f, p') := by
  obtain ⟨m, rfl⟩ : ∃ m, n = i + (m + 1) := ⟨n - i - 1, by omega⟩
  unfold allocateMultiplePages at hs
  rw [allocateLoop_add (i := 0) onlyKernelMode h hfs] at hs
  obtain ⟨⟨f, p'⟩, hnext, -⟩ := Option.bind_eq_some_iff.1 hs
  exact ⟨f, p', hnext⟩

/-- What the loop can do: allocate all pages, or run out of frames. -/
theorem allocateMultiplePages_cases (onlyKernelMode : Bool) {start : Nat} {r : Bool} (h : Plain s.mem s.cr3 tables start n)
    (hs : s.allocateMultiplePages start n onlyKernelMode tables = some (r, s')) :
    (r = true ∧ ∃ fs p, takeFrames n s.pmm = some (fs, p) ∧
        s' = { s with mem := rangeMem s.mem s.cr3 tables onlyKernelMode start fs, pmm := p }) ∨
      r = false ∧ ∃ i fs p p', i < n ∧ takeFrames i s.pmm = some (fs, p) ∧ pmmAllocatePage p = some (0, p') ∧
        deallocatePages i start
          { s with mem := rangeMem s.mem s.cr3 tables onlyKernelMode start fs, pmm := p' } = some s' := by
  obtain ⟨fs, p, hfs⟩ | ⟨i, fs, p, hi, hfs, hout⟩ := Pmm.takeFrames_cases n s.pmm
  · rw [allocateMultiplePages_true onlyKernelMode h hfs] at hs
    cases hs
    exact .inl ⟨rfl, fs, p, hfs, rfl⟩
  · have hinit : Plain s.mem s.cr3 tables start i := h.mono (by omega)
    obtain ⟨f, p', hnext⟩ := allocateMultiplePages_next onlyKernelMode hinit hfs hi hs
    obtain rfl := hout f p' hnext
    rw [allocateMultiplePages_false onlyKernelMode hinit hfs hi hnext, Option.map_eq_some_iff] at hs
    obtain ⟨s₁, hs₁, heq⟩ := hs
    cases heq
    exact .inr ⟨rfl, i, fs, p, p', hi, hfs, hnext, hs₁⟩

end Space

end DBolOS.Paging
