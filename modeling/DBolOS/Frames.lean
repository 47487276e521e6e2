import DBolOS.Pmm

/-!
# Ownership of page frames

What the bitmap operations do to the status of every frame, and from it what a run of allocations and deallocations
does to the frames handed out.
-/

namespace DBolOS.Pmm

/-- The bit of a frame. -/
def occupied (p : PmmInfo) (page : Nat) : Bool := (p.bitmap (page / 32)).getLsbD (page % 32)

/-! ### The bit operations -/

private theorem bitMask_getLsbD (i j : Nat) : (bitMask i).getLsbD j = decide (j = i % 32) := by
  unfold bitMask
  have hi : i % 32 < 32 := Nat.mod_lt _ (by omega)
  rw [BitVec.getLsbD_shiftLeft, Bool.eq_iff_iff]
  simp only [BitVec.getLsbD_one, Bool.and_eq_true, Bool.not_eq_true', decide_eq_true_eq,
    decide_eq_false_iff_not]
  omega

private theorem and_bitMask_ne_zero (w : BitVec 32) (i : Nat) :
    (w &&& bitMask i != 0#32) = w.getLsbD (i % 32) := by
  have hbit : ∀ j, (w &&& bitMask i).getLsbD j = (w.getLsbD j && decide (j = i % 32)) := fun j => by
    rw [BitVec.getLsbD_and, bitMask_getLsbD]
  rw [Bool.eq_iff_iff, bne_iff_ne]
  constructor
  · intro hne
    by_contra hw
    apply hne
    apply BitVec.eq_of_getLsbD_eq
    intro j _
    rw [hbit]
    by_cases hj : j = i % 32
    · rw [hj, Bool.not_eq_true _ |>.mp hw]; simp
    · simp [hj]
  · intro hw h0
    have := hbit (i % 32)
    rw [h0, hw] at this
    simp at this

theorem checkIfOccupied_eq {p : PmmInfo} {i : Nat} (hi : i / 32 < bitmapSize) :
    checkIfOccupied p i = some (occupied p i) := by
  simp only [checkIfOccupied, hi, ↓reduceIte, and_bitMask_ne_zero, occupied]

theorem setBitStatus_eq_some {p p' : PmmInfo} {i : Nat} {status : PageStatus}
    (h : setBitStatus p i status = some p') :
    i / 32 < bitmapSize ∧
      p' = { p with bitmap := Function.update p.bitmap (i / 32) (setBit (p.bitmap (i / 32)) i status) } := by
  simp only [setBitStatus] at h
  split at h
  · rename_i hi
    exact ⟨hi, (Option.some.inj h).symm⟩
  · cases h

/-- Setting a frame occupied sets its bit and no other. -/
theorem occupied_setOccupied {p p' : PmmInfo} {i : Nat} (h : setOccupied p i = some p') (j : Nat) :
    occupied p' j = (decide (j = i) || occupied p j) := by
  obtain ⟨_, rfl⟩ := setBitStatus_eq_some h
  unfold occupied
  by_cases hw : j / 32 = i / 32
  · simp only [hw, Function.update_self, setBit, BitVec.getLsbD_or, bitMask_getLsbD]
    rw [Bool.or_comm]
    congr 2
    rw [eq_iff_iff]
    omega
  · have : j ≠ i := fun hj => hw (by rw [hj])
    simp [Function.update_of_ne hw, this]

/-- Setting a frame free keeps its bit and clears the bits of the other frames of its word: the mask of
`set_bit_status` is not complemented. -/
theorem occupied_setFree {p p' : PmmInfo} {i : Nat} (h : setFree p i = some p') (j : Nat) :
    occupied p' j = if j / 32 = i / 32 then decide (j = i) && occupied p j else occupied p j := by
  obtain ⟨_, rfl⟩ := setBitStatus_eq_some h
  unfold occupied
  by_cases hw : j / 32 = i / 32
  · simp only [hw, Function.update_self, setBit, BitVec.getLsbD_and, bitMask_getLsbD, ↓reduceIte]
    rw [Bool.and_comm]
    congr 2
    rw [eq_iff_iff]
    omega
  · simp only [Function.update_of_ne hw, hw, ↓reduceIte]

theorem setOccupied_isSome {p : PmmInfo} {i : Nat} (hi : i / 32 < bitmapSize) : ∃ p', setOccupied p i = some p' := by
  simp [setOccupied, setBitStatus, hi]

/-! ### The search for a free frame -/

private theorem scanBits_free {p : PmmInfo} {entry n bit b : Nat} (h : scanBits p entry n bit = some (some b)) :
    occupied p b = false ∧ b / 32 < bitmapSize := by
  induction n generalizing bit with
  | zero => simp [scanBits] at h
  | succ n ih =>
    simp only [scanBits] at h
    split at h
    · simp at h
    · by_cases hr : (entry * 32 + bit) / 32 < bitmapSize
      · rw [checkIfOccupied_eq hr] at h
        simp only [Option.bind_eq_bind, Option.bind_some] at h
        split at h
        · exact ih h
        · rename_i hocc
          simp only [Option.some.injEq] at h
          subst h
          exact ⟨by simpa using hocc, hr⟩
      · simp [checkIfOccupied, hr] at h

theorem scanEntries_free {p : PmmInfo} {n entry b : Nat} (h : scanEntries p n entry = some (some b)) :
    occupied p b = false ∧ b / 32 < bitmapSize := by
  induction n generalizing entry with
  | zero => simp [scanEntries] at h
  | succ n ih =>
    simp only [scanEntries] at h
    split at h
    · split at h
      · exact ih h
      · obtain ⟨r, hr, h⟩ := Option.bind_eq_some_iff.1 h
        cases r with
        | none => exact ih h
        | some block =>
          simp only [Option.some.injEq] at h
          subst h
          exact scanBits_free hr
    · cases h

theorem findFirstFreeBlock_free {p : PmmInfo} {b : Nat} (h : findFirstFreeBlock p = some (some b)) :
    occupied p b = false ∧ b / 32 < bitmapSize := by
  unfold findFirstFreeBlock at h
  split at h
  · simp at h
  · exact scanEntries_free h

/-- A word scanned to its end without a free frame has none below `max_pages`. -/
theorem scanBits_cases {p : PmmInfo} {entry : Nat} (he : entry < bitmapSize) {n : Nat} (bit : Nat)
    (hn : bit + n ≤ 32) :
    (∃ b, scanBits p entry n bit = some (some b)) ∨ scanBits p entry n bit = some none ∧
      ∀ k, bit ≤ k → k < bit + n → entry * 32 + k < p.maxPages → occupied p (entry * 32 + k) = true := by
  induction n generalizing bit with
  | zero => exact .inr ⟨rfl, by omega⟩
  | succ n ih =>
    simp only [scanBits]
    split
    · exact .inr ⟨rfl, by omega⟩
    · rw [checkIfOccupied_eq (by omega)]
      simp only [Option.bind_eq_bind, Option.bind_some]
      by_cases hocc : occupied p (entry * 32 + bit) = true
      · simp only [hocc, ↓reduceIte]
        refine (ih (bit + 1) (by omega)).imp_right (And.imp_right fun hall k hk hk' hm => ?_)
        rcases Nat.eq_or_lt_of_le hk with rfl | hlt
        · exact hocc
        · exact hall k hlt (by omega) hm
      · simp [hocc]

/-- While some frame of the scanned words is free, the search finds one. -/
private theorem scanEntries_finds {p : PmmInfo} {n entry : Nat} (hm : (entry + n) * 32 ≤ p.maxPages) {f : Nat}
    (hf : occupied p f = false) (hb : f / 32 < bitmapSize) (h1 : entry ≤ f / 32) (h2 : f / 32 < entry + n) :
    ∃ b, scanEntries p n entry = some (some b) := by
  induction n generalizing entry with
  | zero => omega
  | succ n ih =>
    simp only [scanEntries, show entry < bitmapSize by omega, ↓reduceIte]
    by_cases hfull : p.bitmap entry = 0xffffffff#32
    · simp only [hfull, ↓reduceIte]
      apply ih (by omega) ?_ (by omega)
      refine Nat.succ_le_of_lt (Nat.lt_of_le_of_ne h1 fun he => ?_)
      unfold occupied at hf
      rw [← he, hfull] at hf
      have : (0xffffffff#32).getLsbD (f % 32) = true := by
        rw [show (0xffffffff#32 : BitVec 32) = BitVec.allOnes 32 by decide, BitVec.getLsbD_allOnes]
        simpa using Nat.mod_lt f (by omega)
      rw [this] at hf
      cases hf
    · simp only [hfull, ↓reduceIte]
      rcases scanBits_cases (p := p) (show entry < bitmapSize by omega) (n := 32) 0 (by omega) with
        ⟨b, hs⟩ | ⟨hs, hall⟩
      · exact ⟨b, by simp [hs]⟩
      · simp only [hs, Option.bind_eq_bind, Option.bind_some]
        apply ih (by omega) ?_ (by omega)
        refine Nat.succ_le_of_lt (Nat.lt_of_le_of_ne h1 fun he => ?_)
        have := hall (f % 32) (by omega) (by omega) (by omega)
        rw [show entry * 32 + f % 32 = f by omega, hf] at this
        cases this

/-- While some frame is free and the counter does not say otherwise, the search finds one. -/
theorem findFirstFreeBlock_finds {p : PmmInfo} (hu : p.usedPages ≠ p.maxPages) {f : Nat} (hf : occupied p f = false)
    (hb : f / 32 < bitmapSize) (hlt : f / 32 < p.maxPages / 32) :
    ∃ b, findFirstFreeBlock p = some (some b) := by
  rw [findFirstFreeBlock, if_neg hu]
  exact scanEntries_finds (by omega) hf hb (by omega) (by omega)

/-- What an allocation can do: report that no frame is left, or take a free frame. -/
theorem pmmAllocatePage_cases {p p' : PmmInfo} {r : Nat} (h : pmmAllocatePage p = some (r, p')) :
    (r = 0 ∧ p' = p) ∨ (occupied p r = false ∧ ∀ j, occupied p' j = (decide (j = r) || occupied p j)) := by
  unfold pmmAllocatePage at h
  obtain ⟨b, hb, h⟩ := Option.bind_eq_some_iff.1 h
  cases b with
  | none =>
    simp only [Option.some.injEq, Prod.mk.injEq] at h
    exact .inl ⟨h.1.symm, h.2.symm⟩
  | some b =>
    obtain ⟨q, hq, h⟩ := Option.bind_eq_some_iff.1 h
    simp only [Option.some.injEq, Prod.mk.injEq] at h
    obtain ⟨rfl, rfl⟩ := h
    exact .inr ⟨(findFirstFreeBlock_free hb).1, fun j => occupied_setOccupied hq j⟩

theorem occupied_usedPages (p : PmmInfo) (used j : Nat) :
    occupied { p with usedPages := used } j = occupied p j := rfl

/-- A deallocation keeps its own frame as it was and frees the others of its word. -/
theorem occupied_pmmDeallocatePage {p p' : PmmInfo} {f : Nat} (h : pmmDeallocatePage p f = some p') (j : Nat) :
    occupied p' j = if j / 32 = f / 32 then decide (j = f) && occupied p j else occupied p j := by
  rw [occupied_setFree h, occupied_usedPages]

private theorem pmmAllocatePage_lt {p p' : PmmInfo} {r : Nat} (h : pmmAllocatePage p = some (r, p')) :
    r < bitmapSize * 32 := by
  have hsize : 0 < bitmapSize := by decide
  unfold pmmAllocatePage at h
  obtain ⟨b, hb, h⟩ := Option.bind_eq_some_iff.1 h
  cases b with
  | none =>
    simp only [Option.some.injEq, Prod.mk.injEq] at h
    omega
  | some b =>
    obtain ⟨q, hq, h⟩ := Option.bind_eq_some_iff.1 h
    simp only [Option.some.injEq, Prod.mk.injEq] at h
    have := (findFirstFreeBlock_free hb).2
    omega

/-! ### Taking several frames -/

/-- The next `n` frames that are handed out; `none` when they run out. -/
def takeFrames : Nat → PmmInfo → Option (List Nat × PmmInfo)
  | 0, p => some ([], p)
  | n + 1, p => do
    let (f, p) ← pmmAllocatePage p
    if f = 0 then none
    else do
      let (fs, p) ← takeFrames n p
      some (f :: fs, p)

theorem takeFrames_succ {n : Nat} {p p' : PmmInfo} {fs : List Nat} :
    takeFrames (n + 1) p = some (fs, p') ↔ ∃ f p₁ fs', pmmAllocatePage p = some (f, p₁) ∧ f ≠ 0 ∧
      takeFrames n p₁ = some (fs', p') ∧ fs = f :: fs' := by
  constructor
  · intro h
    obtain ⟨⟨f, p₁⟩, hf, h⟩ := Option.bind_eq_some_iff.1 h
    dsimp only at h
    split at h
    · cases h
    · rename_i hne
      obtain ⟨⟨fs', p₂⟩, hfs', heq⟩ := Option.bind_eq_some_iff.1 h
      cases heq
      exact ⟨f, p₁, fs', hf, hne, hfs', rfl⟩
  · intro ⟨f, p₁, fs', hf, hne, hfs', heq⟩
    unfold takeFrames
    simp [hf, hne, hfs', heq]

theorem takeFrames_add {m n : Nat} {p p' : PmmInfo} {fs : List Nat} (h : takeFrames (m + n) p = some (fs, p')) :
    ∃ p₁, takeFrames m p = some (fs.take m, p₁) ∧ takeFrames n p₁ = some (fs.drop m, p') := by
  induction m generalizing p fs with
  | zero =>
    rw [Nat.zero_add] at h
    exact ⟨p, by simp [takeFrames], by simpa using h⟩
  | succ m ih =>
    rw [Nat.add_right_comm] at h
    obtain ⟨f, p₁, fs', hf, hne, hfs', rfl⟩ := takeFrames_succ.1 h
    obtain ⟨p₂, htake, hdrop⟩ := ih hfs'
    exact ⟨p₂, takeFrames_succ.2 ⟨f, p₁, fs'.take m, hf, hne, htake, rfl⟩, hdrop⟩

/-- Frames taken in two parts. -/
theorem takeFrames_append {m n : Nat} {p p' : PmmInfo} {fs gs : List Nat} (h : takeFrames (m + n) p = some (fs ++ gs, p'))
    (hm : fs.length = m) : ∃ p₁, takeFrames m p = some (fs, p₁) ∧ takeFrames n p₁ = some (gs, p') := by
  subst hm
  obtain ⟨p₁, htake, hdrop⟩ := takeFrames_add h
  rw [List.take_left] at htake
  rw [List.drop_left] at hdrop
  exact ⟨p₁, htake, hdrop⟩

theorem takeFrames_length {n : Nat} {p p' : PmmInfo} {fs : List Nat} (h : takeFrames n p = some (fs, p')) :
    fs.length = n := by
  induction n generalizing p fs with
  | zero =>
    cases h
    rfl
  | succ n ih =>
    obtain ⟨f, p₁, fs', -, -, hfs', rfl⟩ := takeFrames_succ.1 h
    rw [List.length_cons, ih hfs']

/-- The frames taken are marked occupied, and no others. -/
theorem occupied_takeFrames {n : Nat} {p p' : PmmInfo} {fs : List Nat} (h : takeFrames n p = some (fs, p')) (j : Nat) :
    occupied p' j = (decide (j ∈ fs) || occupied p j) := by
  induction n generalizing p fs with
  | zero =>
    cases h
    simp
  | succ n ih =>
    obtain ⟨f, p₁, fs', hf, hne, hfs', rfl⟩ := takeFrames_succ.1 h
    obtain ⟨hzero, -⟩ | ⟨-, hocc⟩ := pmmAllocatePage_cases hf
    · exact absurd hzero hne
    · rw [ih hfs', hocc, Bool.eq_iff_iff]
      simp only [List.mem_cons, Bool.or_eq_true, decide_eq_true_eq]
      tauto

/-- They were free, and none is taken twice. -/
theorem takeFrames_free {n : Nat} {p p' : PmmInfo} {fs : List Nat} (h : takeFrames n p = some (fs, p')) :
    fs.Nodup ∧ ∀ f ∈ fs, occupied p f = false ∧ f < bitmapSize * 32 := by
  induction n generalizing p fs with
  | zero =>
    cases h
    simp
  | succ n ih =>
    obtain ⟨f, p₁, fs', hf, hne, hfs', rfl⟩ := takeFrames_succ.1 h
    obtain ⟨hzero, -⟩ | ⟨hfree, hocc⟩ := pmmAllocatePage_cases hf
    · exact absurd hzero hne
    obtain ⟨hnodup, hall⟩ := ih hfs'
    have hold : ∀ g ∈ fs', g ≠ f ∧ occupied p g = false := by
      intro g hg
      have := (hall g hg).1
      rw [hocc] at this
      simpa using this
    refine ⟨List.nodup_cons.2 ⟨fun hmem => (hold f hmem).1 rfl, hnodup⟩, ?_⟩
    intro g hg
    obtain rfl | hg := List.mem_cons.1 hg
    · exact ⟨hfree, pmmAllocatePage_lt hf⟩
    · exact ⟨(hold g hg).2, (hall g hg).2⟩

private theorem takeFrames_join {m n : Nat} {p p₁ p' : PmmInfo} {fs gs : List Nat} (hm : takeFrames m p = some (fs, p₁))
    (hn : takeFrames n p₁ = some (gs, p')) : takeFrames (m + n) p = some (fs ++ gs, p') := by
  induction m generalizing p fs with
  | zero =>
    cases hm
    rw [Nat.zero_add]
    exact hn
  | succ m ih =>
    obtain ⟨f, p₂, fs', hf, hne, hfs', rfl⟩ := takeFrames_succ.1 hm
    rw [Nat.add_right_comm]
    exact takeFrames_succ.2 ⟨f, p₂, fs' ++ gs, hf, hne, ih hfs', rfl⟩

/-- Either the frames are there, or after some of them no other is handed out. -/
theorem takeFrames_cases (n : Nat) (p : PmmInfo) : (∃ fs p', takeFrames n p = some (fs, p')) ∨
    ∃ i fs p₁, i < n ∧ takeFrames i p = some (fs, p₁) ∧ ∀ f p', pmmAllocatePage p₁ = some (f, p') → f = 0 := by
  induction n with
  | zero => exact .inl ⟨[], p, rfl⟩
  | succ n ih =>
    obtain ⟨fs, p₁, htake⟩ | ⟨i, fs, p₁, hi, hrest⟩ := ih
    · by_cases hout : ∀ f p', pmmAllocatePage p₁ = some (f, p') → f = 0
      · exact .inr ⟨n, fs, p₁, Nat.lt_succ_self n, htake, hout⟩
      · push Not at hout
        obtain ⟨f, p', hf, hne⟩ := hout
        exact .inl ⟨_, _, takeFrames_join htake (takeFrames_succ.2 ⟨f, p', [], hf, hne, rfl, rfl⟩)⟩
    · exact .inr ⟨i, fs, p₁, by omega, hrest⟩

/-- The counters of a manager that still hands out `n` frames: its count of used pages lies beyond the number of
pages, which `find_first_free_block` tests for equality only. -/
structure Counting (p : PmmInfo) (n : Nat) : Prop where
  scanned : p.maxPages / 32 ≤ bitmapSize
  above : p.maxPages < p.usedPages
  below : p.usedPages + n < 2 ^ 32
  reserved : occupied p 0 = true

/-- While one of the pages that are scanned is free, a frame is handed out. -/
private theorem Counting.allocate {p : PmmInfo} {n f : Nat} (h : Counting p (n + 1)) (hf : occupied p f = false)
    (hlt : f / 32 < p.maxPages / 32) :
    ∃ r p', pmmAllocatePage p = some (r, p') ∧ r ≠ 0 ∧ p'.maxPages = p.maxPages ∧ Counting p' n := by
  have hbelow := h.below
  have habove := h.above
  obtain ⟨r, hr⟩ := findFirstFreeBlock_finds (by omega) hf (Nat.lt_of_lt_of_le hlt h.scanned) hlt
  obtain ⟨hfree, hsize⟩ := findFirstFreeBlock_free hr
  obtain ⟨q, hq⟩ := setOccupied_isSome hsize
  obtain ⟨-, heq⟩ := setBitStatus_eq_some hq
  have hmax : q.maxPages = p.maxPages := by rw [heq]
  have hused : q.usedPages = p.usedPages := by rw [heq]
  have hadd : add32 q.usedPages 1 = p.usedPages + 1 := by
    rw [hused]
    unfold add32
    omega
  refine ⟨r, { q with usedPages := add32 q.usedPages 1 }, ?_, ?_, hmax, ?_⟩
  · unfold pmmAllocatePage
    simp only [hr, Option.bind_eq_bind, Option.bind_some, hq]
  · rintro rfl
    rw [h.reserved] at hfree
    cases hfree
  · refine ⟨?_, ?_, ?_, ?_⟩
    · show q.maxPages / 32 ≤ _
      rw [hmax]
      exact h.scanned
    · show q.maxPages < add32 q.usedPages 1
      omega
    · show add32 q.usedPages 1 + n < _
      omega
    · have := occupied_setOccupied hq 0
      rw [h.reserved, Bool.or_true] at this
      exact this

/-- Of `m` pages that are free and scanned, any number of frames can be taken. -/
private theorem exists_takeFrames {p : PmmInfo} {n m start : Nat} (h : Counting p n) (hn : n ≤ m)
    (hfree : ∀ f, start ≤ f → f < start + m → occupied p f = false) (hmax : (start + m) / 32 ≤ p.maxPages / 32)
    (hwhole : (start + m) % 32 = 0) : ∃ fs p', takeFrames n p = some (fs, p') := by
  -- one frame after the other
  suffices hsuff : ∀ k ≤ n, ∃ fs p', takeFrames k p = some (fs, p') ∧ p'.maxPages = p.maxPages ∧
      Counting p' (n - k) by
    obtain ⟨fs, p', htake, -⟩ := hsuff n (Nat.le_refl n)
    exact ⟨fs, p', htake⟩
  intro k hle
  induction k with
  | zero => exact ⟨[], p, rfl, rfl, h⟩
  | succ k ih =>
    obtain ⟨fs, p₁, htake, hmax₁, hcount⟩ := ih (by omega)
    -- fewer frames were taken than there are
    obtain ⟨f, hlo, hhi, hf⟩ : ∃ f, start ≤ f ∧ f < start + m ∧ occupied p₁ f = false := by
      by_contra hnone
      push Not at hnone
      have hsubset : Finset.Ico start (start + m) ⊆ fs.toFinset := by
        intro f hf
        obtain ⟨hlo, hhi⟩ := Finset.mem_Ico.1 hf
        have := occupied_takeFrames htake f
        rw [hfree f hlo hhi, Bool.or_false, Bool.eq_true_of_not_eq_false (hnone f hlo hhi)] at this
        exact List.mem_toFinset.2 (of_decide_eq_true this.symm)
      have hcard := Finset.card_le_card hsubset
      have hlength := List.toFinset_card_le fs
      rw [Nat.card_Ico] at hcard
      rw [takeFrames_length htake] at hlength
      omega
    have hsucc : n - k = (n - (k + 1)) + 1 := by omega
    rw [hsucc] at hcount
    obtain ⟨r, p₂, hr, hne, hmax₂, hcount₂⟩ := hcount.allocate hf (by omega)
    have hlast : takeFrames 1 p₁ = some ([r], p₂) := takeFrames_succ.2 ⟨r, p₂, [], hr, hne, rfl, rfl⟩
    exact ⟨fs ++ [r], p₂, takeFrames_join htake hlast, by rw [hmax₂, hmax₁], hcount₂⟩

/-! ### Runs -/

/-- The manager together with the frames it has handed out and not got back. -/
structure Frames where
  info : PmmInfo
  held : List Nat

inductive FrameOp
  | allocate
  | deallocate (pageIndex : Nat)
  deriving DecidableEq

def step (s : Frames) : FrameOp → Option Frames
  | .allocate => do
    let (r, info) ← pmmAllocatePage s.info
    some { info := info, held := if r = 0 then s.held else r :: s.held }
  | .deallocate f => do
    let info ← pmmDeallocatePage s.info f
    some { info := info, held := s.held.erase f }

/-- Only frames that are held are given back. -/
def Owned (s : Frames) : FrameOp → Prop
  | .allocate => True
  | .deallocate f => f ∈ s.held

/-- What exclusive ownership asks of one call: a frame handed out was not held, a deallocation frees its frame and
leaves every other frame as it was. -/
def Exclusive (s : Frames) (op : FrameOp) (s' : Frames) : Prop :=
  match op with
  | .allocate => ∀ r info, pmmAllocatePage s.info = some (r, info) → r ≠ 0 → r ∉ s.held
  | .deallocate f => ∀ g, occupied s'.info g = if g = f then false else occupied s.info g

/-- Every call of the run over `ops` from `s` keeps ownership exclusive. -/
def RunExclusive (s : Frames) (ops : List FrameOp) : Prop :=
  ∀ pre op post t t', ops = pre ++ op :: post → Machine.Run step Owned s pre t → step t op = some t' →
    Exclusive t op t'

/-- Held frames are marked occupied. -/
def HeldOccupied (s : Frames) : Prop := ∀ f ∈ s.held, occupied s.info f = true

private theorem allocate_heldOccupied {s s' : Frames} (hs : HeldOccupied s) (h : step s .allocate = some s') :
    HeldOccupied s' := by
  obtain ⟨⟨r, info⟩, ha, h⟩ := Option.bind_eq_some_iff.1 h
  simp only [Option.some.injEq] at h
  subst h
  rcases pmmAllocatePage_cases ha with ⟨rfl, rfl⟩ | ⟨_, hocc⟩
  · exact hs
  · intro f hf
    simp only at hf ⊢
    rw [hocc f]
    split at hf
    · simp [hs f hf]
    · rcases List.mem_cons.1 hf with rfl | hf
      · simp
      · simp [hs f hf]

private theorem run_allocate_heldOccupied {s s' : Frames} {ops : List FrameOp} (hs : HeldOccupied s)
    (hops : ∀ op ∈ ops, op = .allocate) (h : Machine.Run step Owned s ops s') : HeldOccupied s' := by
  induction h with
  | nil => exact hs
  | cons _ hstep _ ih =>
    have hop := hops _ (List.mem_cons_self ..)
    subst hop
    exact ih (allocate_heldOccupied hs hstep) fun op hop => hops op (List.mem_cons_of_mem _ hop)

private theorem allocate_exclusive {s s' : Frames} (hs : HeldOccupied s) : Exclusive s .allocate s' := by
  intro r info ha hr hmem
  rcases pmmAllocatePage_cases ha with ⟨h0, _⟩ | ⟨hfree, _⟩
  · exact hr h0
  · rw [hs r hmem] at hfree
    cases hfree

/-- No deallocation of a frame marked occupied is exclusive: the frame stays occupied. -/
private theorem deallocate_not_exclusive {s s' : Frames} {f : Nat} (hs : HeldOccupied s) (hf : f ∈ s.held)
    (h : step s (.deallocate f) = some s') : ¬ Exclusive s (.deallocate f) s' := by
  intro hex
  obtain ⟨info, hd, h⟩ := Option.bind_eq_some_iff.1 h
  simp only [Option.some.injEq] at h
  subst h
  have h1 := hex f
  simp only [↓reduceIte, occupied_pmmDeallocatePage hd, decide_true, Bool.true_and] at h1
  rw [hs f hf] at h1
  cases h1

private theorem exists_first_deallocate {ops : List FrameOp} (h : ¬ ∀ op ∈ ops, op = .allocate) :
    ∃ pre f post, ops = pre ++ .deallocate f :: post ∧ ∀ op ∈ pre, op = .allocate := by
  induction ops with
  | nil => simp at h
  | cons op ops ih =>
    cases op with
    | deallocate f => exact ⟨[], f, ops, rfl, by simp⟩
    | allocate =>
      obtain ⟨pre, f, post, rfl, hpre⟩ := ih fun hall => h (by simpa using hall)
      exact ⟨.allocate :: pre, f, post, rfl, by simpa using hpre⟩

private theorem runExclusive_iff {p : PmmInfo} {ops : List FrameOp} {s' : Frames}
    (h : Machine.Run step Owned ⟨p, []⟩ ops s') :
    RunExclusive ⟨p, []⟩ ops ↔ ∀ op ∈ ops, op = .allocate := by
  have hinit : HeldOccupied ⟨p, []⟩ := by simp [HeldOccupied]
  constructor
  · intro hex
    by_contra hops
    obtain ⟨pre, f, post, rfl, hpre⟩ := exists_first_deallocate hops
    obtain ⟨t, t', hrun, hf, hstep, _⟩ := h.split
    have ht := run_allocate_heldOccupied hinit hpre hrun
    exact deallocate_not_exclusive ht hf hstep (hex pre _ post t t' rfl hrun hstep)
  · rintro hops pre op post t t' rfl hrun _
    have hop : op = .allocate := hops op (by simp)
    subst hop
    exact allocate_exclusive
      (run_allocate_heldOccupied hinit (fun op hop => hops op (List.mem_append_left _ hop)) hrun)

/-- From any state of the bitmap, such as `pmm_init` leaves, ownership is exclusive along a run exactly when the run
deallocates nothing. -/
theorem frames_exclusive_iff (p : PmmInfo) (ops : List FrameOp) (s' : Frames) (hrun : Machine.Run step Owned ⟨p, []⟩ ops s') :
    RunExclusive ⟨p, []⟩ ops ↔ ∀ op ∈ ops, op = .allocate :=
  runExclusive_iff hrun

/-! ### A machine with free frames above 1 GiB -/

/-- No memory map and 2 GiB reported: the frames beyond the cleared quarter of the bitmap count as free. -/
def bigMachine : MultibootInfo := { memLower := 0, memUpper := 32768, mmap := [] }

private theorem setPages_setOccupied (n page : Nat) {p : PmmInfo} (hn : page + n ≤ bitmapSize * 32) :
    ∃ p', setPages setOccupied page n p = some p' ∧ p'.maxPages = p.maxPages ∧ p'.usedPages = p.usedPages ∧
      ∀ j, occupied p' j = (decide (page ≤ j ∧ j < page + n) || occupied p j) := by
  induction n generalizing page p with
  | zero => exact ⟨p, rfl, rfl, rfl, fun j => by simp⟩
  | succ n ih =>
    obtain ⟨q, hq⟩ := setOccupied_isSome (p := p) (i := page) (by omega)
    obtain ⟨p', hp', hm, hu, hocc⟩ := ih (page + 1) (p := q) (by omega)
    obtain ⟨_, hq'⟩ := setBitStatus_eq_some hq
    refine ⟨p', by simp [setPages, hq, hp'], ?_, ?_, fun j => ?_⟩
    · rw [hm, hq']
    · rw [hu, hq']
    · rw [hocc, occupied_setOccupied hq, ← Bool.or_assoc]
      congr 1
      rw [Bool.eq_iff_iff]
      simp only [Bool.or_eq_true, decide_eq_true_eq]
      omega

theorem pmmClearRegion_spec {p : PmmInfo} (length : Nat) (hl : length / pageSize ≤ bitmapSize * 32) :
    ∃ p', pmmClearRegion p 0 length = some p' ∧ p'.maxPages = p.maxPages ∧
      p'.usedPages = add32 p.usedPages (length / pageSize) ∧
      ∀ j, occupied p' j = (decide (j < length / pageSize) || occupied p j) := by
  obtain ⟨q, hq, hm, hu, ho⟩ := setPages_setOccupied (length / pageSize) 0 (p := p) (by omega)
  refine ⟨{ q with usedPages := add32 q.usedPages (length / pageSize) }, ?_, hm, by rw [← hu], fun j => ?_⟩
  · simp only [pmmClearRegion, Nat.zero_div, hq, Option.bind_eq_bind, Option.bind_some]
  · have := ho j
    simp only [Nat.zero_le, true_and, Nat.zero_add] at this
    exact this

theorem occupied_resetInfo (m j : Nat) :
    occupied (resetInfo .static m) j = decide (j / 32 < bitmapSize / 4) := by
  simp only [occupied, resetInfo, PmmInfo.static]
  by_cases h : j / 32 < bitmapSize / 4
  · simp only [h, ↓reduceIte, BitVec.getLsbD_allOnes, decide_true, decide_eq_true_eq]
    exact Nat.mod_lt j (by omega)
  · simp [h]

/-- `pmm_init` on an empty memory map: the first quarter of the bitmap is set and the rest is left as it was. -/
private theorem pmmInit_noMmap (mbi : MultibootInfo) (hmmap : mbi.mmap = []) :
    ∃ p, pmmInit .static (some mbi) = some (.success, p) ∧ p.maxPages = maxPagesOf mbi ∧
      p.usedPages = add32 p.maxPages (0x1800000 / pageSize) ∧
      ∀ j, 0x1800000 / pageSize ≤ j → occupied p j = decide (j / 32 < bitmapSize / 4) := by
  obtain ⟨q, hq, hqm, hqu, hqo⟩ := pmmClearRegion_spec 0x1800000 (p := resetInfo .static (maxPagesOf mbi))
    (by norm_num [bitmapSize, maxPhysicalMemory, pageSize, pagesPerDword])
  obtain ⟨p, hp⟩ := setOccupied_isSome (p := { q with isInitialized := true }) (i := 0)
    (by norm_num [bitmapSize, maxPhysicalMemory, pageSize, pagesPerDword])
  obtain ⟨_, hp'⟩ := setBitStatus_eq_some hp
  have hpm : p.maxPages = maxPagesOf mbi := by rw [hp']; exact hqm
  refine ⟨p, ?_, hpm, ?_, fun j hj => ?_⟩
  · simp only [pmmInit, hmmap, pmmInitMmap, Option.bind_eq_bind, Option.bind_some, hq, hp]
    exact if_neg (by decide)
  · rw [hpm, hp']; exact hqu
  · have hq' : occupied { q with isInitialized := true } j = occupied q j := rfl
    have hj0 : j ≠ 0 := by
      rintro rfl
      norm_num [pageSize] at hj
    rw [occupied_setOccupied hp, hq', hqo, occupied_resetInfo]
    simp only [hj0, Nat.not_lt.2 hj, decide_false, Bool.false_or]

private theorem pmmInit_occupied_zero {mbi : MultibootInfo} {p : PmmInfo}
    (h : pmmInit .static (some mbi) = some (.success, p)) : occupied p 0 = true := by
  simp only [pmmInit] at h
  rw [if_neg (by decide)] at h
  obtain ⟨p1, _, h⟩ := Option.bind_eq_some_iff.1 h
  obtain ⟨p2, _, h⟩ := Option.bind_eq_some_iff.1 h
  obtain ⟨p3, h3, h⟩ := Option.bind_eq_some_iff.1 h
  simp only [Option.some.injEq, Prod.mk.injEq, true_and] at h
  subst h
  rw [occupied_setOccupied h3]
  rfl

/-- The frames of the first 24 MiB are not handed out. -/
theorem pmmInit_low {mbi : MultibootInfo} {p : PmmInfo} (h : pmmInit .static (some mbi) = some (.success, p)) {f : Nat}
    (hf : f < 0x1800) : occupied p f = true := by
  simp only [pmmInit] at h
  rw [if_neg (by decide)] at h
  obtain ⟨p₁, -, h⟩ := Option.bind_eq_some_iff.1 h
  obtain ⟨p₂, hclear, h⟩ := Option.bind_eq_some_iff.1 h
  obtain ⟨p₃, hset, h⟩ := Option.bind_eq_some_iff.1 h
  simp only [Option.some.injEq, Prod.mk.injEq, true_and] at h
  subst h
  obtain ⟨q, hq, -, -, hocc⟩ := pmmClearRegion_spec 0x1800000 (p := p₁)
    (by norm_num [bitmapSize, maxPhysicalMemory, pageSize, pagesPerDword])
  rw [hclear, Option.some.injEq] at hq
  rw [occupied_setOccupied hset]
  show (decide (f = 0) || occupied p₂ f) = true
  rw [hq, hocc, decide_eq_true (show f < 0x1800000 / pageSize from hf), Bool.true_or, Bool.or_true]

/-- On `bigMachine` frames are handed out after `pmm_init`. -/
theorem exists_takeFrames_bigMachine : ∃ p, pmmInit .static (some bigMachine) = some (.success, p) ∧
    ∀ n ≤ 0x40000, ∃ fs p', takeFrames n p = some (fs, p') := by
  obtain ⟨p, hinit, hm, hu, hocc⟩ := pmmInit_noMmap bigMachine rfl
  have hm : p.maxPages = 524544 := by rw [hm]; norm_num [maxPagesOf, bigMachine, pageSize, add32]
  have hu : p.usedPages = 530688 := by rw [hu, hm]; norm_num [pageSize, add32]
  refine ⟨p, hinit, ?_⟩
  intro n hn
  have hcount : Counting p n := by
    refine ⟨?_, ?_, ?_, pmmInit_low hinit (by omega)⟩
    · rw [hm]
      norm_num [bitmapSize, maxPhysicalMemory, pageSize, pagesPerDword]
    · omega
    · omega
  refine @exists_takeFrames _ _ 0x40000 0x40000 hcount hn ?_ ?_ ?_
  · intro f hlo hhi
    have hsize : bitmapSize / 4 = 8192 := by decide
    rw [hocc f (by unfold pageSize; omega), hsize, decide_eq_false_iff_not]
    omega
  · omega
  · omega

/-- On `bigMachine` a frame can be handed out and given back. -/
theorem exists_run_bigMachine : ∃ p f s', pmmInit .static (some bigMachine) = some (.success, p) ∧
    Machine.Run step Owned ⟨p, []⟩ [.allocate, .deallocate f] s' := by
  obtain ⟨p, hinit, hm, hu, hocc⟩ := pmmInit_noMmap bigMachine rfl
  have h0 := pmmInit_occupied_zero hinit
  have hm : p.maxPages = 524544 := by rw [hm]; norm_num [maxPagesOf, bigMachine, pageSize, add32]
  have hu : p.usedPages ≠ p.maxPages := by rw [hu, hm]; norm_num [pageSize, add32]
  have hfree : occupied p 262144 = false := by
    rw [hocc 262144 (by norm_num [pageSize])]
    norm_num [bitmapSize, maxPhysicalMemory, pageSize, pagesPerDword]
  obtain ⟨f, hfind⟩ := findFirstFreeBlock_finds hu hfree
    (by norm_num [bitmapSize, maxPhysicalMemory, pageSize, pagesPerDword]) (by omega)
  obtain ⟨hff, hfb⟩ := findFirstFreeBlock_free hfind
  have hf0 : f ≠ 0 := by
    rintro rfl
    rw [h0] at hff
    cases hff
  obtain ⟨q, hq⟩ := setOccupied_isSome (p := p) hfb
  have h1 : step ⟨p, []⟩ .allocate = some ⟨{ q with usedPages := add32 q.usedPages 1 }, [f]⟩ := by
    simp [step, pmmAllocatePage, hfind, hq, hf0]
  have h2 : ∃ s', step ⟨{ q with usedPages := add32 q.usedPages 1 }, [f]⟩ (.deallocate f) = some s' := by
    simp [step, pmmDeallocatePage, setFree, setBitStatus, hfb]
  obtain ⟨s', h2⟩ := h2
  exact ⟨p, f, s', hinit, .cons trivial h1 (.single (by simp [Owned]) h2)⟩

theorem frames_not_exclusive : ¬ ∀ mbi p, pmmInit .static (some mbi) = some (.success, p) → ∀ ops s',
    Machine.Run step Owned ⟨p, []⟩ ops s' → RunExclusive ⟨p, []⟩ ops := by
  intro hall
  obtain ⟨p, f, s', hinit, hrun⟩ := exists_run_bigMachine
  have := (runExclusive_iff hrun).1 (hall _ _ hinit _ _ hrun) (.deallocate f) (by simp)
  cases this

theorem frames_exclusive_iff_bigMachine : ∃ p f s', pmmInit .static (some bigMachine) = some (.success, p) ∧
    Machine.Run step Owned ⟨p, []⟩ [.allocate, .deallocate f] s' ∧
    (RunExclusive ⟨p, []⟩ [.allocate, .deallocate f] ↔
      ∀ op ∈ [FrameOp.allocate, .deallocate f], op = .allocate) := by
  obtain ⟨p, f, s', hinit, hrun⟩ := exists_run_bigMachine
  exact ⟨p, f, s', hinit, hrun, frames_exclusive_iff _ _ _ hrun⟩

end DBolOS.Pmm
