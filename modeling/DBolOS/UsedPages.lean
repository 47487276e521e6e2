import DBolOS.Bitmap

/-!
# The count of used pages

`used_pages` is lowered by a region's length whatever pages of it were free before, and a deallocation lowers it by one
whatever it frees.  The search takes a full count for a full bitmap, and looks at whole words only.  Along a run the
count is right and the search finds what there is exactly when the memory map releases as many pages as the count says
and every call finds the words of the bitmap as it needs them (`accounted_iff`).
-/

namespace DBolOS.Pmm

variable {p p' q : PmmInfo} {mbi : MultibootInfo} {s s' : Frames} {op : FrameOp} {n entry bit b f r : Nat}

/-! ### Accounting -/

/-- How many page indices below `max_pages` are marked occupied. -/
def occupiedCount (p : PmmInfo) : Nat :=
  ((Finset.range p.maxPages).filter fun page => checkIfOccupied p page = some true).card

/-- `used_pages` is right, and the allocation reports that no page is left only when none is free. -/
structure Accounted (p : PmmInfo) : Prop where
  used : p.usedPages = occupiedCount p
  exhausted : (∃ p', pmmAllocatePage p = some (0, p')) ↔
    ∀ page, page < p.maxPages → checkIfOccupied p page ≠ some false

/-- Page `page` is free and lies in a word that is searched. -/
def Findable (p : PmmInfo) (page : Nat) : Prop := page / 32 < p.maxPages / 32 ∧ checkIfOccupied p page = some false

/-- The search stays in the bitmap, and the pages behind the words it looks at are not free. -/
def NoneBehind (p : PmmInfo) : Prop :=
  p.maxPages / 32 ≤ bitmapSize ∧
    ∀ page, p.maxPages / 32 ≤ page / 32 → page < p.maxPages → checkIfOccupied p page ≠ some false

/-- What a call needs: an allocation leaves a page that can be found or none behind the words that are searched, and in
the word of a page that is given back exactly one other page is occupied. -/
def KeepsCount (s : Frames) : FrameOp → Prop
  | .allocate => (∃ a b, a ≠ b ∧ Findable s.info a ∧ Findable s.info b) ∨ NoneBehind s.info
  | .deallocate f => ∃! page, page / 32 = f / 32 ∧ page ≠ f ∧ occupied s.info page = true

/-! ### What `pmm_init` counts -/

/-- How many pages the regions of a memory map release, each as often as it is released. -/
def releasedPages (mmap : List MmapEntry) : Nat :=
  (mmap.map fun e => if e.type = 1 then e.lenLow / pageSize else 0).sum

/-- `pmm_init` leaves the page free, if it has a bit. -/
def LeftFree (mmap : List MmapEntry) (page : Nat) : Prop :=
  0x1800 ≤ page ∧ (2 ^ 18 ≤ page ∨ ∃ other, Released mmap other ∧ other / 32 = page / 32 ∧ other ≠ page)

open Classical in
/-- The memory map releases the pages that are left free and as many as are reserved, and a page that is left free lies
in a word that is searched, or there is none. -/
structure Counts (mbi : MultibootInfo) : Prop where
  released : releasedPages mbi.mmap ≡
    0x1800 + ((Finset.range (maxPagesOf mbi)).filter (LeftFree mbi.mmap)).card [MOD 2 ^ 32]
  found : (∃ page, page / 32 < maxPagesOf mbi / 32 ∧ page < 2 ^ 20 ∧ LeftFree mbi.mmap page) ∨
    maxPagesOf mbi / 32 ≤ bitmapSize ∧ ∀ page, page < maxPagesOf mbi → page < 2 ^ 20 → ¬ LeftFree mbi.mmap page

/-! ### Bits -/

private theorem checkIfOccupied_eq_true (i : Nat) :
    checkIfOccupied p i = some true ↔ i / 32 < bitmapSize ∧ occupied p i = true := by
  by_cases hi : i / 32 < bitmapSize
  · simp [checkIfOccupied_eq hi, hi]
  · simp [checkIfOccupied, hi]

private theorem checkIfOccupied_eq_false (i : Nat) :
    checkIfOccupied p i = some false ↔ i / 32 < bitmapSize ∧ occupied p i = false := by
  by_cases hi : i / 32 < bitmapSize
  · simp [checkIfOccupied_eq hi, hi]
  · simp [checkIfOccupied, hi]

private theorem occupiedCount_lt (hb : b < p.maxPages) (hfree : checkIfOccupied p b = some false) :
    occupiedCount p < p.maxPages := by
  calc occupiedCount p < (Finset.range p.maxPages).card := by
        refine Finset.card_lt_card (Finset.filter_ssubset.2 ⟨b, Finset.mem_range.2 hb, ?_⟩)
        rw [hfree]
        simp
    _ = p.maxPages := Finset.card_range _

private theorem occupiedCount_le (p : PmmInfo) : occupiedCount p ≤ 2 ^ 20 := by
  have hsize := bitmapSize_eq
  calc occupiedCount p ≤ (Finset.range (2 ^ 20)).card := by
        refine Finset.card_le_card fun page hpage => ?_
        have hbit := ((checkIfOccupied_eq_true page).1 (Finset.mem_filter.1 hpage).2).1
        exact Finset.mem_range.2 (by omega)
    _ = 2 ^ 20 := Finset.card_range _

/-! ### The search -/

private theorem scanBits_word (h : scanBits p entry n bit = some (some b)) (hn : bit + n ≤ 32) : b / 32 = entry := by
  induction n generalizing bit with
  | zero => simp [scanBits] at h
  | succ n ih =>
    simp only [scanBits] at h
    split at h
    · simp at h
    · obtain ⟨occ, -, h⟩ := Option.bind_eq_some_iff.1 h
      split at h
      · exact ih h (by omega)
      · cases h
        omega

private theorem scanEntries_word (h : scanEntries p n entry = some (some b)) : b / 32 < entry + n := by
  induction n generalizing entry with
  | zero => simp [scanEntries] at h
  | succ n ih =>
    simp only [scanEntries] at h
    split at h
    · split at h
      · have := ih h
        omega
      · obtain ⟨found, hfound, h⟩ := Option.bind_eq_some_iff.1 h
        cases found with
        | none =>
          have := ih h
          omega
        | some block =>
          cases h
          have := scanBits_word hfound (by omega)
          omega
    · cases h

/-- The block that is found lies in a whole word below `max_pages`. -/
private theorem findFirstFreeBlock_findable (h : findFirstFreeBlock p = some (some b)) : Findable p b := by
  obtain ⟨hfree, hbit⟩ := findFirstFreeBlock_free h
  refine ⟨?_, (checkIfOccupied_eq_false b).2 ⟨hbit, hfree⟩⟩
  unfold findFirstFreeBlock at h
  split at h
  · simp at h
  · have := scanEntries_word h
    omega

/-- A search that finds nothing goes through all its words, as far as the bitmap reaches. -/
private theorem scanEntries_cases (n : Nat) (he : entry ≤ bitmapSize) :
    (∃ b, scanEntries p n entry = some (some b)) ∨
      scanEntries p n entry = if entry + n ≤ bitmapSize then some none else none := by
  induction n generalizing entry with
  | zero => exact .inr (if_pos he).symm
  | succ n ih =>
    simp only [scanEntries]
    by_cases hentry : entry < bitmapSize
    · rw [if_pos hentry, Nat.add_comm n 1, ← Nat.add_assoc]
      split
      · exact ih hentry
      · obtain ⟨b, hbits⟩ | ⟨hbits, -⟩ := scanBits_cases (p := p) hentry (n := 32) 0 (by omega)
        · exact .inl ⟨b, by simp [hbits]⟩
        · simp only [hbits, Option.bind_eq_bind, Option.bind_some]
          exact ih hentry
    · right
      rw [if_neg hentry, if_neg (by omega)]

private theorem pmmAllocatePage_findable (h : pmmAllocatePage p = some (r, p')) :
    (r = 0 ∧ p' = p ∧ findFirstFreeBlock p = some none) ∨
      Findable p r ∧ p'.maxPages = p.maxPages ∧ p'.usedPages = add32 p.usedPages 1 ∧
        ∀ j, occupied p' j = (decide (j = r) || occupied p j) := by
  obtain ⟨found, hfound, h⟩ := Option.bind_eq_some_iff.1 h
  cases found with
  | none =>
    cases h
    exact .inl ⟨rfl, rfl, hfound⟩
  | some b =>
    obtain ⟨q, hq, h⟩ := Option.bind_eq_some_iff.1 h
    cases h
    obtain ⟨-, heq⟩ := setBitStatus_eq_some hq
    refine .inr ⟨findFirstFreeBlock_findable hfound, ?_, ?_, fun j => occupied_setOccupied hq j⟩
    · rw [heq]
    · rw [heq]

/-- Where the count is right, the allocation reports exhaustion rightly when there is a page to find, or none behind the
words that are searched. -/
private theorem exhausted_iff (hused : p.usedPages = occupiedCount p) (hzero : occupied p 0 = true) :
    ((∃ p', pmmAllocatePage p = some (0, p')) ↔
        ∀ page, page < p.maxPages → checkIfOccupied p page ≠ some false) ↔
      (∃ page, Findable p page) ∨ NoneBehind p := by
  by_cases hfind : ∃ page, Findable p page
  · -- the search finds a page, and not page 0
    obtain ⟨page, hword, hfree⟩ := hfind
    have hlt : page < p.maxPages := by omega
    have hcount := occupiedCount_lt hlt hfree
    refine iff_of_true (iff_of_false ?_ fun hall => hall page hlt hfree) (.inl ⟨page, hword, hfree⟩)
    rintro ⟨p', halloc⟩
    obtain ⟨hbit, hclear⟩ := (checkIfOccupied_eq_false page).1 hfree
    obtain ⟨b, hb⟩ := findFirstFreeBlock_finds (by omega) hclear hbit hword
    obtain ⟨-, -, hnone⟩ | ⟨⟨-, hfree₀⟩, -⟩ := pmmAllocatePage_findable halloc
    · rw [hb] at hnone
      cases hnone
    · rw [((checkIfOccupied_eq_false 0).1 hfree₀).2] at hzero
      cases hzero
  · have hscan : scanEntries p (p.maxPages / 32) 0 = if p.maxPages / 32 ≤ bitmapSize then some none else none := by
      obtain ⟨b, hb⟩ | hscan := scanEntries_cases (p := p) (p.maxPages / 32) (Nat.zero_le _)
      · obtain ⟨hfree, hbit⟩ := scanEntries_free hb
        have := scanEntries_word hb
        exact absurd ⟨b, by omega, (checkIfOccupied_eq_false b).2 ⟨hbit, hfree⟩⟩ hfind
      · rwa [Nat.zero_add] at hscan
    rw [or_iff_right hfind]
    by_cases hreach : p.maxPages / 32 ≤ bitmapSize
    · -- nothing is found: 0 is returned
      have hzero' : ∃ p', pmmAllocatePage p = some (0, p') := by
        rw [if_pos hreach] at hscan
        refine ⟨p, ?_⟩
        unfold pmmAllocatePage findFirstFreeBlock
        rw [hscan, ite_self]
        rfl
      have hbehind : ∀ page, checkIfOccupied p page = some false → p.maxPages / 32 ≤ page / 32 := by
        intro page hfree
        by_contra hlt
        exact hfind ⟨page, by omega, hfree⟩
      rw [iff_true_left hzero']
      constructor
      · exact fun hall => ⟨hreach, fun page _ hlt => hall page hlt⟩
      · exact fun hnone page hlt hfree => hnone.2 page (hbehind page hfree) hlt hfree
    · -- the search leaves the bitmap, since the count cannot be full
      have hcount := occupiedCount_le p
      have hsize := bitmapSize_eq
      have hundefined : pmmAllocatePage p = none := by
        rw [if_neg hreach] at hscan
        unfold pmmAllocatePage findFirstFreeBlock
        rw [if_neg (by omega), hscan]
        rfl
      have hbits : ∀ page, page < 2 ^ 20 → page / 32 < p.maxPages / 32 := fun page hlt => by omega
      refine iff_of_false ?_ fun hnone => hreach hnone.1
      rw [hundefined]
      intro hiff
      obtain ⟨p', hp'⟩ := hiff.2 fun page _ hfree => by
        have := ((checkIfOccupied_eq_false page).1 hfree).1
        exact hfind ⟨page, hbits page (by omega), hfree⟩
      cases hp'

/-! ### The calls -/

/-- The pages of the word of `f` other than `f` that are occupied. -/
private def others (p : PmmInfo) (f : Nat) : Finset Nat :=
  (Finset.Ico (f / 32 * 32) (f / 32 * 32 + 32)).filter fun page => page ≠ f ∧ occupied p page = true

private theorem mem_others {page : Nat} :
    page ∈ others p f ↔ page / 32 = f / 32 ∧ page ≠ f ∧ occupied p page = true := by
  unfold others
  rw [Finset.mem_filter, Finset.mem_Ico]
  refine and_congr_left fun _ => ?_
  omega

private theorem occupiedCount_eq (p : PmmInfo) : occupiedCount p =
    ((Finset.range p.maxPages).filter fun page => page / 32 < bitmapSize ∧ occupied p page = true).card := by
  unfold occupiedCount
  simp only [checkIfOccupied_eq_true]

private theorem occupiedCount_allocate (hmax : p'.maxPages = p.maxPages) (hr : Findable p r)
    (hocc : ∀ j, occupied p' j = (decide (j = r) || occupied p j)) : occupiedCount p' = occupiedCount p + 1 := by
  obtain ⟨hword, hfree⟩ := hr
  obtain ⟨hbit, hclear⟩ := (checkIfOccupied_eq_false r).1 hfree
  rw [occupiedCount_eq, occupiedCount_eq, hmax, ← Finset.card_insert_of_notMem (a := r) fun hmem => by
    rw [Finset.mem_filter, hclear] at hmem
    exact absurd hmem.2.2 (by decide)]
  congr 1
  ext page
  simp only [Finset.mem_filter, Finset.mem_insert, Finset.mem_range, hocc, Bool.or_eq_true, decide_eq_true_eq]
  constructor
  · rintro ⟨hlt, hpage, rfl | hpage'⟩
    · exact .inl rfl
    · exact .inr ⟨hlt, hpage, hpage'⟩
  · rintro (rfl | ⟨hlt, hpage, hpage'⟩)
    · exact ⟨by omega, hbit, .inl rfl⟩
    · exact ⟨hlt, hpage, .inr hpage'⟩

private theorem pmmDeallocatePage_fields (h : pmmDeallocatePage p f = some p') :
    f / 32 < bitmapSize ∧ p'.maxPages = p.maxPages ∧ p'.usedPages = sub32 p.usedPages 1 := by
  obtain ⟨hbit, rfl⟩ := setBitStatus_eq_some h
  exact ⟨hbit, rfl, rfl⟩

/-- A deallocation takes the other pages of the word off the count, and not the page itself. -/
private theorem occupiedCount_deallocate (h : pmmDeallocatePage p f = some p') (hword : f / 32 < p.maxPages / 32) :
    occupiedCount p' + (others p f).card = occupiedCount p := by
  obtain ⟨hbit, hmax, -⟩ := pmmDeallocatePage_fields h
  rw [occupiedCount_eq, occupiedCount_eq, hmax, ← Finset.card_union_of_disjoint]
  · congr 1
    ext page
    rw [Finset.mem_union, Finset.mem_filter, Finset.mem_filter, mem_others, occupied_pmmDeallocatePage h, Finset.mem_range]
    by_cases hpage : page / 32 = f / 32
    · rw [if_pos hpage, Bool.and_eq_true, decide_eq_true_eq]
      by_cases hf : page = f
      · simp [hf]
      · simp only [hf, false_and, and_false, false_or, hpage, true_and, ne_eq, not_false_eq_true]
        exact ⟨fun hocc => ⟨by omega, hbit, hocc⟩, fun hall => hall.2.2⟩
    · rw [if_neg hpage, or_iff_left fun hand => hpage hand.1]
  · rw [Finset.disjoint_left]
    intro page hpage hother
    rw [Finset.mem_filter, occupied_pmmDeallocatePage h] at hpage
    obtain ⟨hsame, hne, -⟩ := mem_others.1 hother
    rw [if_pos hsame] at hpage
    simp [hne] at hpage

/-! ### Runs -/

/-- What a run keeps as long as the count is right. -/
structure Tracked (s : Frames) : Prop where
  accounted : Accounted s.info
  reserved : ∀ page, page < 0x1800 → occupied s.info page = true
  held : ∀ f ∈ s.held, 0x1800 ≤ f ∧ f / 32 < s.info.maxPages / 32

private theorem exhausted_of_accounted (h : Accounted p) (hzero : occupied p 0 = true) :
    (∃ page, Findable p page) ∨ NoneBehind p :=
  (exhausted_iff h.used hzero).1 h.exhausted

private theorem step_allocate (ht : Tracked s) (h : step s .allocate = some s') :
    (Accounted s'.info ↔ KeepsCount s .allocate) ∧ (Accounted s'.info → Tracked s') := by
  have hzero := ht.reserved 0 (by decide)
  have hcount := occupiedCount_le s.info
  obtain ⟨⟨r, info⟩, halloc, h⟩ := Option.bind_eq_some_iff.1 h
  cases h
  obtain ⟨rfl, rfl, hnone⟩ | ⟨hfind, hmax, hused, hocc⟩ := pmmAllocatePage_findable halloc
  · -- nothing was found: the state is the one before
    have hall := ht.accounted.exhausted.1 ⟨_, halloc⟩
    have hno : ¬ ∃ page, Findable s.info page := by
      rintro ⟨page, hword, hfree⟩
      exact hall page (by omega) hfree
    refine ⟨iff_of_true ht.accounted (.inr ?_), fun _ => ht⟩
    exact (exhausted_of_accounted ht.accounted hzero).resolve_left hno
  · have hr : r ≠ 0 := by
      rintro rfl
      rw [((checkIfOccupied_eq_false 0).1 hfind.2).2] at hzero
      cases hzero
    have hlow : 0x1800 ≤ r := by
      by_contra hlt
      have := ht.reserved r (by omega)
      rw [((checkIfOccupied_eq_false r).1 hfind.2).2] at this
      cases this
    have hreserved : ∀ page, page < 0x1800 → occupied info page = true := fun page hlt => by
      rw [hocc, ht.reserved page hlt, Bool.or_true]
    have hused' : info.usedPages = occupiedCount info := by
      rw [hused, occupiedCount_allocate hmax hfind hocc, ht.accounted.used]
      unfold add32
      omega
    have hfree : ∀ page, checkIfOccupied info page = some false ↔ page ≠ r ∧ checkIfOccupied s.info page = some false := by
      intro page
      rw [checkIfOccupied_eq_false, checkIfOccupied_eq_false, hocc, Bool.or_eq_false_iff, decide_eq_false_iff_not]
      tauto
    have hfindable : ∀ page, Findable info page ↔ page ≠ r ∧ Findable s.info page := by
      intro page
      unfold Findable
      rw [hmax, hfree]
      tauto
    have hbehind : NoneBehind info ↔ NoneBehind s.info := by
      unfold NoneBehind
      rw [hmax]
      refine and_congr_right fun _ => forall_congr' fun page => imp_congr_right fun hword => imp_congr_right fun _ => ?_
      have hne : page ≠ r := by
        rintro rfl
        have := hfind.1
        omega
      rw [ne_eq, hfree, and_iff_right hne]
    refine ⟨?_, fun hacc => ⟨hacc, hreserved, ?_⟩⟩
    · calc Accounted info ↔ (∃ page, Findable info page) ∨ NoneBehind info :=
            ⟨fun hacc => (exhausted_iff hused' (hreserved 0 (by decide))).1 hacc.exhausted,
              fun hany => ⟨hused', (exhausted_iff hused' (hreserved 0 (by decide))).2 hany⟩⟩
        _ ↔ KeepsCount s .allocate := by
            rw [hbehind]
            refine or_congr_left ⟨?_, ?_⟩
            · rintro ⟨page, hpage⟩
              exact ⟨page, r, ((hfindable page).1 hpage).1, ((hfindable page).1 hpage).2, hfind⟩
            · rintro ⟨a, b, hne, ha, hb⟩
              by_cases har : a = r
              · exact ⟨b, (hfindable b).2 ⟨fun hbr => hne (har.trans hbr.symm), hb⟩⟩
              · exact ⟨a, (hfindable a).2 ⟨har, ha⟩⟩
    · intro f hf
      dsimp only at hf ⊢
      rw [if_neg hr] at hf
      rw [hmax]
      rcases List.mem_cons.1 hf with rfl | hf
      · exact ⟨hlow, hfind.1⟩
      · exact ht.held f hf

private theorem step_deallocate (ht : Tracked s) (hf : f ∈ s.held) (h : step s (.deallocate f) = some s') :
    (Accounted s'.info ↔ KeepsCount s (.deallocate f)) ∧ (Accounted s'.info → Tracked s') := by
  obtain ⟨info, hdealloc, h⟩ := Option.bind_eq_some_iff.1 h
  cases h
  obtain ⟨hlow, hword⟩ := ht.held f hf
  obtain ⟨hbit, hmax, hused⟩ := pmmDeallocatePage_fields hdealloc
  have hcount := occupiedCount_deallocate hdealloc hword
  have hle := occupiedCount_le s.info
  have hreserved : ∀ page, page < 0x1800 → occupied info page = true := fun page hlt => by
    rw [occupied_pmmDeallocatePage hdealloc, if_neg (by omega), ht.reserved page hlt]
  -- the reserved pages are counted
  have hpos : 0 < occupiedCount s.info := by
    refine Finset.card_pos.2 ⟨0, Finset.mem_filter.2 ⟨Finset.mem_range.2 (by omega), ?_⟩⟩
    exact (checkIfOccupied_eq_true 0).2 ⟨by decide, ht.reserved 0 (by decide)⟩
  have hused' : info.usedPages = occupiedCount info ↔ (others s.info f).card = 1 := by
    rw [hused, ht.accounted.used]
    unfold sub32
    omega
  have hunique : (others s.info f).card = 1 ↔ KeepsCount s (.deallocate f) := by
    rw [Finset.card_eq_one, Finset.singleton_iff_unique_mem]
    simp only [mem_others]
    rfl
  refine ⟨?_, fun hacc => ⟨hacc, hreserved, ?_⟩⟩
  · constructor
    · exact fun hacc => hunique.1 (hused'.1 hacc.used)
    · intro hkeeps
      have hone := hused'.2 (hunique.2 hkeeps)
      obtain ⟨page, ⟨hsame, hne, hocc⟩, -⟩ := hkeeps
      have hfree : checkIfOccupied info page = some false := by
        rw [checkIfOccupied_eq_false, occupied_pmmDeallocatePage hdealloc, if_pos hsame]
        exact ⟨by omega, by simp [hne]⟩
      exact ⟨hone, (exhausted_iff hone (hreserved 0 (by decide))).2
        (.inl ⟨page, by rw [hmax]; omega, hfree⟩)⟩
  · intro g hg
    rw [hmax]
    exact ht.held g (List.mem_of_mem_erase hg)

/-! ### The state after `pmm_init` -/

private theorem setPages_usedPages {n page : Nat} {status : PageStatus}
    (h : setPages (fun p i => setBitStatus p i status) page n p = some p') :
    p'.usedPages = p.usedPages ∧ ∀ i, page ≤ i → i < page + n → i / 32 < bitmapSize := by
  induction n generalizing page p with
  | zero =>
    cases h
    exact ⟨rfl, fun i hlo hhi => by omega⟩
  | succ n ih =>
    obtain ⟨q, hq, h⟩ := Option.bind_eq_some_iff.1 h
    obtain ⟨hbit, rfl⟩ := setBitStatus_eq_some hq
    obtain ⟨hused, hrest⟩ := ih h
    refine ⟨hused, fun i hlo hhi => ?_⟩
    rcases Nat.eq_or_lt_of_le hlo with rfl | hlt
    · exact hbit
    · exact hrest i hlt (by omega)

/-- The regions are taken off the count at their whole length. -/
private theorem pmmInitMmap_usedPages {mmap : List MmapEntry} (h : pmmInitMmap mmap p = some p') :
    p'.usedPages + releasedPages mmap ≡ p.usedPages [MOD 2 ^ 32] := by
  induction mmap generalizing p with
  | nil =>
    cases h
    rfl
  | cons e es ih =>
    unfold pmmInitMmap at h
    unfold releasedPages at ih ⊢
    rw [List.map_cons, List.sum_cons]
    by_cases htype : e.type = 1
    · rw [if_pos htype] at h ⊢
      obtain ⟨q, hq, h⟩ := Option.bind_eq_some_iff.1 h
      obtain ⟨q', hq', hq⟩ := Option.bind_eq_some_iff.1 hq
      cases hq
      obtain ⟨hused, hbits⟩ := setPages_usedPages hq'
      have hrest := ih h
      dsimp only at hrest
      rw [hused] at hrest
      have hsize := bitmapSize_eq
      generalize e.addrLow / pageSize = first at hbits
      generalize e.lenLow / pageSize = n at hbits hrest ⊢
      -- a region reaches no further than the bitmap
      have hlen : n ≤ 2 ^ 20 := by
        by_contra hlong
        have := hbits (first + 2 ^ 20) (by omega) (by omega)
        omega
      unfold sub32 at hrest
      unfold Nat.ModEq at hrest ⊢
      omega
    · rw [if_neg htype, Nat.zero_add]
      rw [if_neg htype, Option.bind_eq_bind, Option.bind_some] at h
      exact ih h

private theorem pmmInit_usedPages (hinit : pmmInit .static (some mbi) = some (.success, p)) :
    p.usedPages < 2 ^ 32 ∧ p.usedPages + releasedPages mbi.mmap ≡ maxPagesOf mbi + 0x1800 [MOD 2 ^ 32] := by
  simp only [pmmInit] at hinit
  rw [if_neg (by decide)] at hinit
  obtain ⟨p₁, hmap, hinit⟩ := Option.bind_eq_some_iff.1 hinit
  obtain ⟨p₂, hclear, hinit⟩ := Option.bind_eq_some_iff.1 hinit
  obtain ⟨p₃, hset, hinit⟩ := Option.bind_eq_some_iff.1 hinit
  cases hinit
  obtain ⟨-, rfl⟩ := setBitStatus_eq_some hset
  obtain ⟨q, hq, -, hused, -⟩ := pmmClearRegion_spec 0x1800000 (p := p₁)
    (by norm_num [bitmapSize, maxPhysicalMemory, pageSize, pagesPerDword])
  rw [hclear] at hq
  cases hq
  have hmmap := pmmInitMmap_usedPages hmap
  have hreserved : 0x1800000 / pageSize = 0x1800 := by norm_num [pageSize]
  have hreset : (resetInfo .static (maxPagesOf mbi)).usedPages = maxPagesOf mbi := rfl
  dsimp only
  rw [hused, hreserved]
  rw [hreset] at hmmap
  unfold add32 Nat.ModEq at *
  omega

open Classical in
private theorem occupiedCount_init (hmax : p.maxPages = maxPagesOf mbi)
    (hocc : ∀ j, occupied p j = true ↔ j < 0x1800 ∨ j < 2 ^ 18 ∧ AloneIn (Released mbi.mmap) j) :
    occupiedCount p + ((Finset.range (maxPagesOf mbi)).filter (LeftFree mbi.mmap)).card = maxPagesOf mbi := by
  have hsize := bitmapSize_eq
  have hcompl : ∀ page, checkIfOccupied p page = some true ↔ ¬ LeftFree mbi.mmap page := by
    intro page
    rw [checkIfOccupied_eq_true, hocc]
    unfold LeftFree AloneIn
    rw [not_and_or, not_or, Nat.not_le, Nat.not_le, hsize]
    constructor
    · rintro ⟨-, hlow | ⟨hlt, halone⟩⟩
      · exact .inl hlow
      · exact .inr ⟨hlt, fun ⟨other, hreleased, hsame, hne⟩ => hne (halone other hreleased hsame)⟩
    · rintro (hlow | ⟨hlt, hnone⟩)
      · exact ⟨by omega, .inl hlow⟩
      · refine ⟨by omega, .inr ⟨hlt, fun other hreleased hsame => ?_⟩⟩
        by_contra hne
        exact hnone ⟨other, hreleased, hsame, hne⟩
  unfold occupiedCount
  simp only [hcompl]
  rw [hmax, Nat.add_comm, Finset.card_filter_add_card_filter_not, Finset.card_range]

private theorem checkIfOccupied_init (hocc : ∀ j, occupied p j = true ↔ j < 0x1800 ∨ j < 2 ^ 18 ∧
    AloneIn (Released mbi.mmap) j) (page : Nat) :
    checkIfOccupied p page = some false ↔ page < 2 ^ 20 ∧ LeftFree mbi.mmap page := by
  have hsize := bitmapSize_eq
  rw [checkIfOccupied_eq_false, ← Bool.not_eq_true, hocc]
  unfold LeftFree AloneIn
  rw [not_or, not_and_or, Nat.not_lt, Nat.not_lt]
  simp only [not_forall, exists_prop, ne_eq]
  exact and_congr_left fun _ => by omega

open Classical in
/-- `pmm_init` counts right on the memory maps of `Counts`. -/
private theorem accounted_pmmInit (hinit : pmmInit .static (some mbi) = some (.success, p)) :
    (Accounted p ↔ Counts mbi) ∧ (Accounted p → Tracked ⟨p, []⟩) := by
  obtain ⟨q, hinit', hmax, hocc⟩ := occupied_pmmInit (pmmInit_regions hinit)
  rw [hinit] at hinit'
  cases hinit'
  obtain ⟨hlt, hmod⟩ := pmmInit_usedPages hinit
  have hcount := occupiedCount_init hmax hocc
  have hle := occupiedCount_le p
  have hreserved : ∀ page, page < 0x1800 → occupied p page = true := fun page hpage => (hocc page).2 (.inl hpage)
  have hused : p.usedPages = occupiedCount p ↔ releasedPages mbi.mmap ≡
      0x1800 + ((Finset.range (maxPagesOf mbi)).filter (LeftFree mbi.mmap)).card [MOD 2 ^ 32] := by
    unfold Nat.ModEq at *
    omega
  have hfound : ((∃ page, Findable p page) ∨ NoneBehind p) ↔
      (∃ page, page / 32 < maxPagesOf mbi / 32 ∧ page < 2 ^ 20 ∧ LeftFree mbi.mmap page) ∨
        maxPagesOf mbi / 32 ≤ bitmapSize ∧ ∀ page, page < maxPagesOf mbi → page < 2 ^ 20 → ¬ LeftFree mbi.mmap page := by
    unfold Findable NoneBehind
    simp only [checkIfOccupied_init hocc, hmax, ne_eq, not_and]
    constructor
    · rintro (hany | ⟨hreach, hbehind⟩)
      · exact .inl hany
      · by_cases hany : ∃ page, page / 32 < maxPagesOf mbi / 32 ∧ page < 2 ^ 20 ∧ LeftFree mbi.mmap page
        · exact .inl hany
        · refine .inr ⟨hreach, fun page hpage hbit hfree => ?_⟩
          by_cases hword : page / 32 < maxPagesOf mbi / 32
          · exact hany ⟨page, hword, hbit, hfree⟩
          · exact hbehind page (by omega) hpage hbit hfree
    · exact Or.imp_right fun ⟨hreach, hall⟩ => ⟨hreach, fun page _ => hall page⟩
  refine ⟨?_, fun hacc => ⟨hacc, hreserved, by simp⟩⟩
  constructor
  · intro hacc
    exact ⟨hused.1 hacc.used, hfound.1 (exhausted_of_accounted hacc (hreserved 0 (by decide)))⟩
  · rintro ⟨hreleased, hany⟩
    have hright := hused.2 hreleased
    exact ⟨hright, (exhausted_iff hright (hreserved 0 (by decide))).2 (hfound.2 hany)⟩

/-- The count is right and exhaustion is reported rightly in every state of a run from `pmm_init` exactly when the memory
map counts right and every call finds the bitmap as it needs it. -/
theorem accounted_iff (mbi : MultibootInfo) (p : PmmInfo) (ops : List FrameOp) (s' : Frames)
    (hinit : pmmInit .static (some mbi) = some (.success, p)) (hrun : Machine.Run step Owned ⟨p, []⟩ ops s') :
    (∀ pre suf t, ops = pre ++ suf → Machine.Run step Owned ⟨p, []⟩ pre t → Accounted t.info) ↔
      Counts mbi ∧ ∀ pre op suf t, ops = pre ++ op :: suf → Machine.Run step Owned ⟨p, []⟩ pre t → KeepsCount t op := by
  obtain ⟨hiff, htracked⟩ := accounted_pmmInit hinit
  by_cases hacc : Accounted p
  · rw [and_iff_right (hiff.1 hacc)]
    refine hrun.forall_prefix_iff (P := Tracked) (R := fun t => Accounted t.info) (fun _ ht => ht.accounted) ?_
      (htracked hacc)
    intro s op s' ht howned hstep
    cases op with
    | allocate => exact step_allocate ht hstep
    | deallocate f => exact step_deallocate ht howned hstep
  · refine iff_of_false (fun hall => hacc (hall [] ops _ rfl (.nil _))) fun hcounts => hacc (hiff.2 hcounts.1)

theorem accounted_iff_bigMachine : ∃ p f s', pmmInit .static (some bigMachine) = some (.success, p) ∧
    Machine.Run step Owned ⟨p, []⟩ [.allocate, .deallocate f] s' ∧
    ((∀ pre suf t, [.allocate, .deallocate f] = pre ++ suf → Machine.Run step Owned ⟨p, []⟩ pre t →
        Accounted t.info) ↔
      Counts bigMachine ∧ ∀ pre op suf t, [.allocate, .deallocate f] = pre ++ op :: suf →
        Machine.Run step Owned ⟨p, []⟩ pre t → KeepsCount t op) := by
  obtain ⟨p, f, s', hinit, hrun⟩ := exists_run_bigMachine
  exact ⟨p, f, s', hinit, hrun, accounted_iff _ _ _ _ hinit hrun⟩

/-- On `smallMachine` more than two million pages count as used, and no more than 2^18 bits of the bitmap are set. -/
theorem smallMachine_not_accounted : ∃ p, pmmInit .static (some smallMachine) = some (.success, p) ∧
    p.usedPages = 2052640 ∧ occupiedCount p ≤ 2 ^ 18 ∧ ¬ Accounted p := by
  have hregions : ∀ page, Released smallMachine.mmap page → page < 2 ^ 20 := by
    intro page
    simp only [Released, smallMachine, List.mem_cons, List.not_mem_nil, or_false, exists_eq_or_imp, exists_eq_left,
      pageSize]
    omega
  obtain ⟨p, hinit, hmax, hocc⟩ := occupied_pmmInit hregions
  have hle : occupiedCount p ≤ 2 ^ 18 := by
    calc occupiedCount p ≤ (Finset.range (2 ^ 18)).card := by
          refine Finset.card_le_card fun page hpage => ?_
          have := (hocc page).1 ((checkIfOccupied_eq_true page).1 (Finset.mem_filter.1 hpage).2).2
          exact Finset.mem_range.2 (by omega)
      _ = 2 ^ 18 := Finset.card_range _
  obtain ⟨hlt, hmod⟩ := pmmInit_usedPages hinit
  have hpages : maxPagesOf smallMachine = 2079135 := by norm_num [maxPagesOf, smallMachine, pageSize, add32]
  have hreleased : releasedPages smallMachine.mmap = 32639 := by norm_num [releasedPages, smallMachine, pageSize]
  have hused : p.usedPages = 2052640 := by
    rw [hpages, hreleased] at hmod
    unfold Nat.ModEq at hmod
    omega
  refine ⟨p, hinit, hused, hle, fun hacc => ?_⟩
  have := hacc.used
  omega

end DBolOS.Pmm
