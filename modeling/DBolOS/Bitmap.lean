import DBolOS.Frames

/-!
# The bitmap after `pmm_init`

A frame is to be free exactly when it lies below `max_pages`, above the reserved 24 MiB and inside an available
region of the memory map, and the search for a free frame is to stay inside the bitmap.  `bitmapRight_iff` says on
which machines this holds.  Three things get in the way elsewhere:

* `memset` clears the first quarter of the bitmap only, so the frames from 1 GiB on start out free;
* `set_free` keeps the bit of its frame and clears those of the other 31 frames of the word, so below 1 GiB a frame
  gets free exactly when another frame of its word is released (`occupied_pmmInit`);
* only the low words of an address and of a length are read, and `max_pages` is not bounded by the bitmap.
-/

namespace DBolOS.Pmm

/-! ### What the memory map says -/

def MmapEntry.address (e : MmapEntry) : Nat := e.addrHigh * 2 ^ 32 + e.addrLow

def MmapEntry.length (e : MmapEntry) : Nat := e.lenHigh * 2 ^ 32 + e.lenLow

/-- The whole page lies inside an available region. -/
def Available (mmap : List MmapEntry) (page : Nat) : Prop :=
  ∃ e ∈ mmap, e.type = 1 ∧ e.address ≤ page * pageSize ∧ (page + 1) * pageSize ≤ e.address + e.length

/-- `pmm_init_region` calls `set_free` on the page. -/
def Released (mmap : List MmapEntry) (page : Nat) : Prop :=
  ∃ e ∈ mmap, e.type = 1 ∧ e.addrLow / pageSize ≤ page ∧ page < e.addrLow / pageSize + e.lenLow / pageSize

/-- The frames marked free are the right ones, and `find_first_free_block` reads words of the bitmap only. -/
structure BitmapRight (mbi : MultibootInfo) (p : PmmInfo) : Prop where
  free_iff : ∀ page, checkIfOccupied p page = some false ↔
    page < p.maxPages ∧ 0x1800 ≤ page ∧ Available mbi.mmap page
  examined : ∀ entry < p.maxPages / 32, entry < bitmapSize

/-- A machine on which the bitmap comes out right. -/
structure RightMachine (mbi : MultibootInfo) : Prop where
  /-- No region reaches past the bitmap. -/
  regions : ∀ page, Released mbi.mmap page → page < 2 ^ 20
  /-- The bitmap is as large as the memory reported, up to one word. -/
  reported : 2 ^ 20 ≤ maxPagesOf mbi ∧ maxPagesOf mbi < 2 ^ 20 + 32
  /-- From 1 GiB on, the pages of the bitmap are available and no others. -/
  above : ∀ page, 2 ^ 18 ≤ page → page < maxPagesOf mbi → (Available mbi.mmap page ↔ page < 2 ^ 20)
  /-- Below 1 GiB, a page is available exactly when another page of its word is released. -/
  below : ∀ page, 0x1800 ≤ page → page < 2 ^ 18 →
    (Available mbi.mmap page ↔ ∃ other, Released mbi.mmap other ∧ other / 32 = page / 32 ∧ other ≠ page)

theorem bitmapSize_eq : bitmapSize = 32768 := by decide

/-! ### Releasing the regions -/

/-- No page of `released` other than `page` shares its word. -/
def AloneIn (released : Nat → Prop) (page : Nat) : Prop := ∀ other, released other → other / 32 = page / 32 → other = page

private theorem AloneIn.or_iff {r s : Nat → Prop} {page : Nat} :
    AloneIn (fun i => r i ∨ s i) page ↔ AloneIn r page ∧ AloneIn s page := by
  constructor
  · intro h
    exact ⟨fun i hi => h i (.inl hi), fun i hi => h i (.inr hi)⟩
  · rintro ⟨hr, hs⟩ i (hi | hi)
    · exact hr i hi
    · exact hs i hi

private theorem occupied_setFree_iff {p p' : PmmInfo} {i : Nat} (h : setFree p i = some p') (j : Nat) :
    occupied p' j = true ↔ occupied p j = true ∧ AloneIn (fun k => k = i) j := by
  rw [occupied_setFree h]
  unfold AloneIn
  by_cases hword : j / 32 = i / 32
  · rw [if_pos hword, Bool.and_eq_true, decide_eq_true_eq, and_comm]
    refine and_congr_right fun _ => ⟨?_, ?_⟩
    · rintro rfl k rfl _
      rfl
    · intro h
      exact (h i rfl hword.symm).symm
  · rw [if_neg hword]
    refine (and_iff_left ?_).symm
    rintro k rfl hk
    exact absurd hk.symm hword

/-- What the loop of `pmm_init_region` does when it stays inside the bitmap. -/
private theorem setPages_setFree (n page : Nat) {p : PmmInfo} (hn : ∀ i, page ≤ i → i < page + n → i < 2 ^ 20) :
    ∃ p', setPages setFree page n p = some p' ∧ p'.maxPages = p.maxPages ∧
      ∀ j, occupied p' j = true ↔ occupied p j = true ∧ AloneIn (fun i => page ≤ i ∧ i < page + n) j := by
  induction n generalizing page p with
  | zero =>
    refine ⟨p, rfl, rfl, fun j => (and_iff_left ?_).symm⟩
    rintro i ⟨hlo, hhi⟩
    omega
  | succ n ih =>
    have hpage : page / 32 < bitmapSize := by
      have := hn page (Nat.le_refl page) (by omega)
      rw [bitmapSize_eq]
      omega
    obtain ⟨q, hq⟩ : ∃ q, setFree p page = some q := by simp [setFree, setBitStatus, hpage]
    obtain ⟨-, hq'⟩ := setBitStatus_eq_some hq
    obtain ⟨p', hp', hmax, hocc⟩ := ih (page + 1) (p := q) (fun i hlo hhi => hn i (by omega) (by omega))
    refine ⟨p', by simp [setPages, hq, hp'], by rw [hmax, hq'], ?_⟩
    intro j
    rw [hocc, occupied_setFree_iff hq, and_assoc, ← AloneIn.or_iff]
    have hrange : (fun i => i = page ∨ page + 1 ≤ i ∧ i < page + 1 + n) =
        fun i => page ≤ i ∧ i < page + (n + 1) := by
      funext i
      rw [eq_iff_iff]
      omega
    rw [hrange]

private theorem setPages_setFree_isSome {n page : Nat} {p p' : PmmInfo} (h : setPages setFree page n p = some p') :
    ∀ i, page ≤ i → i < page + n → i < 2 ^ 20 := by
  induction n generalizing page p with
  | zero => omega
  | succ n ih =>
    intro i hlo hhi
    obtain ⟨q, hq, h⟩ := Option.bind_eq_some_iff.1 h
    obtain ⟨hpage, -⟩ := setBitStatus_eq_some hq
    rw [bitmapSize_eq] at hpage
    rcases Nat.eq_or_lt_of_le hlo with rfl | hlt
    · omega
    · exact ih h i hlt (by omega)

private theorem released_cons (e : MmapEntry) (es : List MmapEntry) :
    Released (e :: es) = fun page => (e.type = 1 ∧ e.addrLow / pageSize ≤ page ∧
      page < e.addrLow / pageSize + e.lenLow / pageSize) ∨ Released es page := by
  funext page
  simp [Released]

/-- The loop over the memory map, when its regions lie inside the bitmap. -/
private theorem pmmInitMmap_spec (mmap : List MmapEntry) {p : PmmInfo} (hin : ∀ page, Released mmap page → page < 2 ^ 20) :
    ∃ p', pmmInitMmap mmap p = some p' ∧ p'.maxPages = p.maxPages ∧
      ∀ j, occupied p' j = true ↔ occupied p j = true ∧ AloneIn (Released mmap) j := by
  induction mmap generalizing p with
  | nil =>
    refine ⟨p, rfl, rfl, fun j => (and_iff_left ?_).symm⟩
    rintro i ⟨e, hmem, -⟩
    cases hmem
  | cons e es ih =>
    rw [released_cons] at hin ⊢
    have hrest : ∀ page, Released es page → page < 2 ^ 20 := fun page h => hin page (.inr h)
    by_cases htype : e.type = 1
    · obtain ⟨q, hq, hqmax, hqocc⟩ := setPages_setFree (e.lenLow / pageSize) (e.addrLow / pageSize) (p := p)
        (fun i hlo hhi => hin i (.inl ⟨htype, hlo, hhi⟩))
      obtain ⟨p', hp', hmax, hocc⟩ :=
        ih (p := { q with usedPages := sub32 q.usedPages (e.lenLow / pageSize) }) hrest
      refine ⟨p', by simp [pmmInitMmap, pmmInitRegion, htype, hq, hp'], by rw [hmax, ← hqmax], ?_⟩
      intro j
      simp only [htype, true_and]
      rw [hocc, occupied_usedPages, hqocc, and_assoc, ← AloneIn.or_iff]
    · obtain ⟨p', hp', hmax, hocc⟩ := ih (p := p) hrest
      refine ⟨p', by simp [pmmInitMmap, htype, hp'], hmax, ?_⟩
      intro j
      simp only [htype, false_and, false_or]
      exact hocc j

private theorem pmmInitMmap_isSome {mmap : List MmapEntry} {p p' : PmmInfo} (h : pmmInitMmap mmap p = some p') :
    ∀ page, Released mmap page → page < 2 ^ 20 := by
  induction mmap generalizing p with
  | nil =>
    rintro page ⟨e, hmem, -⟩
    cases hmem
  | cons e es ih =>
    intro page hpage
    rw [released_cons] at hpage
    unfold pmmInitMmap at h
    by_cases htype : e.type = 1
    · rw [if_pos htype] at h
      obtain ⟨q, hq, h⟩ := Option.bind_eq_some_iff.1 h
      obtain ⟨q', hq', -⟩ := Option.bind_eq_some_iff.1 hq
      rcases hpage with ⟨-, hlo, hhi⟩ | hpage
      · exact setPages_setFree_isSome hq' page hlo hhi
      · exact ih h page hpage
    · rw [if_neg htype] at h
      rcases hpage with ⟨htype', -⟩ | hpage
      · exact absurd htype' htype
      · exact ih h page hpage

/-! ### The whole initialisation -/

/-- The bitmap that `pmm_init` leaves: the pages below 24 MiB are occupied, and of the others those below 1 GiB that
no released page shares its word with. -/
theorem occupied_pmmInit {mbi : MultibootInfo} (hin : ∀ page, Released mbi.mmap page → page < 2 ^ 20) :
    ∃ p, pmmInit .static (some mbi) = some (.success, p) ∧ p.maxPages = maxPagesOf mbi ∧
      ∀ j, occupied p j = true ↔ j < 0x1800 ∨ j < 2 ^ 18 ∧ AloneIn (Released mbi.mmap) j := by
  obtain ⟨p₁, hmap, hmax₁, hocc₁⟩ := pmmInitMmap_spec mbi.mmap (p := resetInfo .static (maxPagesOf mbi)) hin
  obtain ⟨p₂, hclear, hmax₂, -, hocc₂⟩ := pmmClearRegion_spec 0x1800000 (p := p₁)
    (by norm_num [bitmapSize, maxPhysicalMemory, pageSize, pagesPerDword])
  obtain ⟨p, hset⟩ := setOccupied_isSome (p := { p₂ with isInitialized := true }) (i := 0) (by decide)
  obtain ⟨-, hp⟩ := setBitStatus_eq_some hset
  refine ⟨p, ?_, ?_, ?_⟩
  · simp only [pmmInit, Option.bind_eq_bind, hmap, Option.bind_some, hclear, hset]
    exact if_neg (by decide)
  · rw [hp]
    exact hmax₂.trans hmax₁
  · intro j
    have hreserved : 0x1800000 / pageSize = 0x1800 := by norm_num [pageSize]
    have hquarter : j / 32 < bitmapSize / 4 ↔ j < 2 ^ 18 := by
      rw [bitmapSize_eq]
      omega
    have hocc : occupied { p₂ with isInitialized := true } j = _ := hocc₂ j
    rw [occupied_setOccupied hset, hocc, hreserved, Bool.or_eq_true, Bool.or_eq_true, hocc₁, occupied_resetInfo,
      decide_eq_true_eq, decide_eq_true_eq, decide_eq_true_eq, hquarter]
    constructor
    · rintro (rfl | h | h)
      · exact .inl (by omega)
      · exact .inl h
      · exact .inr h
    · exact .inr

theorem pmmInit_regions {mbi : MultibootInfo} {p : PmmInfo} (h : pmmInit .static (some mbi) = some (.success, p)) :
    ∀ page, Released mbi.mmap page → page < 2 ^ 20 := by
  simp only [pmmInit] at h
  rw [if_neg (by decide)] at h
  obtain ⟨p₁, hmap, -⟩ := Option.bind_eq_some_iff.1 h
  exact pmmInitMmap_isSome hmap

private theorem checkIfOccupied_free {p : PmmInfo} (page : Nat) :
    checkIfOccupied p page = some false ↔ page < 2 ^ 20 ∧ ¬ occupied p page = true := by
  by_cases hpage : page / 32 < bitmapSize
  · rw [checkIfOccupied_eq hpage, Option.some.injEq, Bool.not_eq_true]
    rw [bitmapSize_eq] at hpage
    exact (and_iff_right (by omega)).symm
  · simp only [checkIfOccupied, hpage, ↓reduceIte, reduceCtorEq, false_iff]
    rw [bitmapSize_eq] at hpage
    rintro ⟨hlt, -⟩
    omega

/-- The pages that `pmm_init` marks free. -/
private theorem free_pmmInit {mbi : MultibootInfo} (hin : ∀ page, Released mbi.mmap page → page < 2 ^ 20) :
    ∃ p, pmmInit .static (some mbi) = some (.success, p) ∧ p.maxPages = maxPagesOf mbi ∧
      ∀ page, checkIfOccupied p page = some false ↔ page < 2 ^ 20 ∧ 0x1800 ≤ page ∧
        (2 ^ 18 ≤ page ∨ ∃ other, Released mbi.mmap other ∧ other / 32 = page / 32 ∧ other ≠ page) := by
  obtain ⟨p, hinit, hmax, hocc⟩ := occupied_pmmInit hin
  refine ⟨p, hinit, hmax, ?_⟩
  intro page
  rw [checkIfOccupied_free, hocc, not_or, not_and_or, Nat.not_lt, Nat.not_lt]
  simp only [AloneIn, not_forall, exists_prop, ne_eq]

/-- The machines on which `pmm_init` leaves the right bitmap. -/
private theorem right_iff (mbi : MultibootInfo) :
    (∃ p, pmmInit .static (some mbi) = some (.success, p) ∧ BitmapRight mbi p) ↔ RightMachine mbi := by
  have hsize := bitmapSize_eq
  constructor
  · rintro ⟨p, hinit, hfree, hexamined⟩
    have hin := pmmInit_regions hinit
    obtain ⟨q, hinit', hmax, hpages⟩ := free_pmmInit hin
    obtain rfl : p = q := by simpa [hinit] using hinit'
    rw [hmax, hsize] at hexamined
    rw [hmax] at hfree
    simp only [hpages] at hfree
    have hbound : maxPagesOf mbi < 2 ^ 20 + 32 := by
      by_contra hlarge
      have := hexamined (2 ^ 15) (by omega)
      omega
    -- the last page of the bitmap is free
    have hlast : 2 ^ 20 ≤ maxPagesOf mbi := by
      obtain ⟨hlt, -, -⟩ := (hfree (2 ^ 20 - 1)).1 ⟨by omega, by omega, .inl (by omega)⟩
      omega
    refine ⟨hin, ⟨hlast, hbound⟩, ?_, ?_⟩
    · intro page hlo hhi
      constructor
      · intro havailable
        exact ((hfree page).2 ⟨hhi, by omega, havailable⟩).1
      · intro hpage
        exact ((hfree page).1 ⟨hpage, by omega, .inl hlo⟩).2.2
    · intro page hlo hhi
      constructor
      · intro havailable
        obtain ⟨-, -, hother⟩ := (hfree page).2 ⟨by omega, hlo, havailable⟩
        exact hother.resolve_left (by omega)
      · intro hother
        exact ((hfree page).1 ⟨by omega, hlo, .inr hother⟩).2.2
  · rintro ⟨hin, ⟨hlast, hbound⟩, habove, hbelow⟩
    obtain ⟨p, hinit, hmax, hpages⟩ := free_pmmInit hin
    refine ⟨p, hinit, ?_, ?_⟩
    · intro page
      rw [hpages, hmax]
      by_cases hpage : page < 2 ^ 18
      · constructor
        · rintro ⟨-, hlo, hother⟩
          exact ⟨by omega, hlo, (hbelow page hlo hpage).2 (hother.resolve_left (by omega))⟩
        · rintro ⟨-, hlo, havailable⟩
          exact ⟨by omega, hlo, .inr ((hbelow page hlo hpage).1 havailable)⟩
      · constructor
        · rintro ⟨hlt, hlo, -⟩
          exact ⟨by omega, hlo, (habove page (by omega) (by omega)).2 hlt⟩
        · rintro ⟨hlt, hlo, havailable⟩
          exact ⟨(habove page (by omega) hlt).1 havailable, hlo, .inl (by omega)⟩
    · intro entry hentry
      rw [hmax] at hentry
      rw [hsize]
      omega

/-- `pmm_init` leaves the right bitmap exactly on the machines of `RightMachine`. -/
theorem bitmapRight_iff (mbi : MultibootInfo) :
    (∃ p, pmmInit .static (some mbi) = some (.success, p) ∧ BitmapRight mbi p) ↔ RightMachine mbi :=
  right_iff mbi

/-- A machine that reports 4 GiB, all of it above 24 MiB available: there the bitmap comes out right. -/
def fourGib : MultibootInfo :=
  { memLower := 0
    memUpper := 65520
    mmap := [{ addrLow := 0x1800000, addrHigh := 0, lenLow := 0xfe800000, lenHigh := 0, type := 1 }] }

theorem fourGib_right : RightMachine fourGib := by
  have hmax : maxPagesOf fourGib = 2 ^ 20 := by norm_num [maxPagesOf, fourGib, pageSize, add32]
  have hreleased : ∀ page, Released fourGib.mmap page ↔ 0x1800 ≤ page ∧ page < 2 ^ 20 := by
    intro page
    simp only [Released, fourGib, List.mem_singleton, exists_eq_left, true_and, pageSize]
    omega
  have havailable : ∀ page, Available fourGib.mmap page ↔ 0x1800 ≤ page ∧ page < 2 ^ 20 := by
    intro page
    simp only [Available, fourGib, List.mem_singleton, exists_eq_left, true_and, pageSize, MmapEntry.address,
      MmapEntry.length]
    omega
  refine ⟨fun page h => ((hreleased page).1 h).2, by omega, ?_, ?_⟩
  · intro page hlo hhi
    rw [havailable]
    omega
  · intro page hlo hhi
    rw [havailable]
    refine iff_of_true (by omega) ?_
    -- the neighbour in the word
    refine ⟨page / 32 * 32 + (page + 1) % 32, (hreleased _).2 (by omega), by omega, by omega⟩

/-- A machine of 128 MiB as a boot loader describes it, `mem_lower` and `mem_upper` in kilobytes. -/
def smallMachine : MultibootInfo :=
  { memLower := 639
    memUpper := 129920
    mmap := [{ addrLow := 0, addrHigh := 0, lenLow := 0x9fc00, lenHigh := 0, type := 1 },
      { addrLow := 0x9fc00, addrHigh := 0, lenLow := 0x400, lenHigh := 0, type := 2 },
      { addrLow := 0x100000, addrHigh := 0, lenLow := 0x7ee0000, lenHigh := 0, type := 1 }] }

/-- `mem_upper` is counted in units of 64 KiB, so `max_pages` reaches past the bitmap. -/
theorem smallMachine_not_right : ¬ ∃ p, pmmInit .static (some smallMachine) = some (.success, p) ∧
    BitmapRight smallMachine p := by
  rw [right_iff]
  rintro ⟨-, ⟨-, hbound⟩, -, -⟩
  have hmax : maxPagesOf smallMachine = 2079135 := by norm_num [maxPagesOf, smallMachine, pageSize, add32]
  omega

end DBolOS.Pmm
