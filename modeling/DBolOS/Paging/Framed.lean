import DBolOS.Paging.Ranges

/-!
# Mapping a range

`allocate_multiple_pages` enters one table for every entry of the directory that it makes.  The pages of the range get
frames of their own, and no other page is translated differently, exactly when no two pages in use share a slot and the
tables that are entered map no page outside the range (`range_framed`).
-/

namespace DBolOS.Paging

open Pmm (PmmInfo pmmInit takeFrames occupied bigMachine)

variable {mem : Memory} {s s' : Space} {start n tables w q j f : Nat} {onlyKernelMode : Bool}

/-- A page through which a table of the range is seen. -/
def TableWindow (start n w : Nat) : Prop := ∃ q, start ≤ q ∧ q < start + n ∧ w = 0xFFC00 + q / 1024

/-- Every page of the range is translated to the frame that was handed out for it, no frame was handed out twice, and
every page outside the range, those apart through which its tables are seen, is translated as before. -/
structure Framed (s s' : Space) (start n : Nat) (fs : List Nat) : Prop where
  taken : takeFrames n s.pmm = some (fs, s'.pmm)
  nodup : fs.Nodup
  own : ∀ i f, fs[i]? = some f → translate s'.mem s'.cr3 (start + i) = some f
  outside : ∀ w, w < 0x100000 → w < start ∨ start + n ≤ w → ¬ TableWindow start n w →
    translate s'.mem s'.cr3 w = translate s.mem s.cr3 w

/-- The range ends below the recursive entry, and neither its tables nor those of other pages are the directory. -/
structure Ordinary (s : Space) (start n tables : Nat) : Prop extends Plain s.mem s.cr3 tables start n where
  others : ∀ i, i < 1023 → (s.mem s.cr3 i).present = true → (s.mem s.cr3 i).address ≠ s.cr3

/-- The page has a table, or gets one. -/
def InUse (s : Space) (start n w : Nat) : Prop := (s.mem s.cr3 (w / 1024)).present = true ∨ Touched start n (w / 1024)

structure Mappable (s : Space) (start n tables : Nat) : Prop extends Ordinary s start n tables where
  /-- The slot of a page of the range belongs to no other page. -/
  slots : ∀ q w, start ≤ q → q < start + n → w < 0xFFC00 → InUse s start n w →
    slot s.mem s.cr3 tables q = slot s.mem s.cr3 tables w → w = q
  /-- A table that is entered maps no page outside the range. -/
  stale : ∀ w, w < 0xFFC00 → w < start ∨ start + n ≤ w → (s.mem s.cr3 (w / 1024)).present = false →
    Touched start n (w / 1024) → (s.mem (tableOf s.mem s.cr3 tables w) (w % 1024)).present = false

/-! ### Translations behind the loop -/

/-- The translation of a page that has a table or gets one. -/
private theorem translate_rangeMem {fs : List Nat} (h : Ordinary s start n tables) (hlength : fs.length = n)
    (huse : InUse s start n w) : translate (rangeMem s.mem s.cr3 tables onlyKernelMode start fs) s.cr3 w =
      let e := rangeMem s.mem s.cr3 tables onlyKernelMode start fs (tableOf s.mem s.cr3 tables w) (w % 1024)
      if e.present then some e.address else none := by
  subst hlength
  obtain ⟨hiff, -, htable⟩ := @rangeMem_directory s.mem s.cr3 tables start (w / 1024) onlyKernelMode fs h.toPlain
  have hpresent := hiff.2 huse
  rw [← htable w, tableOf_of_present hpresent]
  unfold translate PAGES_PER_TABLE
  dsimp only
  rw [if_pos hpresent]

private theorem translate_rangeMem_none {fs : List Nat} (h : Ordinary s start n tables) (hlength : fs.length = n)
    (huse : ¬ InUse s start n w) :
    translate (rangeMem s.mem s.cr3 tables onlyKernelMode start fs) s.cr3 w = none ∧ translate s.mem s.cr3 w = none := by
  subst hlength
  obtain ⟨hiff, -, -⟩ := @rangeMem_directory s.mem s.cr3 tables start (w / 1024) onlyKernelMode fs h.toPlain
  have hnew : ¬ (rangeMem s.mem s.cr3 tables onlyKernelMode start fs s.cr3 (w / 1024)).present = true :=
    fun hpresent => huse (hiff.1 hpresent)
  have hold : ¬ (s.mem s.cr3 (w / 1024)).present = true := fun hpresent => huse (.inl hpresent)
  unfold translate PAGES_PER_TABLE
  dsimp only
  rw [if_neg hnew, if_neg hold]
  exact ⟨rfl, rfl⟩

/-- The translation of the page through which table `j` is seen. -/
theorem translate_window {c : Nat} (h : SelfMapped mem c) (hj : j < 1024) :
    translate mem c (0xFFC00 + j) = if (mem c j).present then some (mem c j).address else none := by
  unfold translate PAGES_PER_TABLE
  dsimp only
  rw [show (0xFFC00 + j) / 1024 = 1023 by omega, show (0xFFC00 + j) % 1024 = j by omega, if_pos h.present, h.self]

/-- The table of a page in use is not the directory. -/
private theorem Ordinary.tableOf_ne (h : Ordinary s start n tables) (hw : w < 0xFFC00) (huse : InUse s start n w) :
    tableOf s.mem s.cr3 tables w ≠ s.cr3 := by
  by_cases hpresent : (s.mem s.cr3 (w / 1024)).present = true
  · rw [tableOf_of_present hpresent]
    exact h.others _ (by omega) hpresent
  · obtain ⟨q, hlo, hhi, hq⟩ := huse.resolve_left hpresent
    have := h.apart q hlo hhi
    unfold tableOf at this ⊢
    rwa [← tableFor_congr hq]

/-- A page whose slot is none of the range keeps its entry. -/
private theorem Ordinary.kept {fs : List Nat} (h : Ordinary s start n tables) (hlength : fs.length = n) (hw : w < 0xFFC00)
    (huse : InUse s start n w)
    (hslot : ∀ q, start ≤ q → q < start + n → slot s.mem s.cr3 tables q ≠ slot s.mem s.cr3 tables w) :
    rangeMem s.mem s.cr3 tables onlyKernelMode start fs (tableOf s.mem s.cr3 tables w) (w % 1024) =
      s.mem (tableOf s.mem s.cr3 tables w) (w % 1024) := by
  subst hlength
  exact rangeMem_of_ne h.toPlain (h.tableOf_ne hw huse) hslot

private theorem inUse_of_range (hlo : start ≤ q) (hhi : q < start + n) : InUse s start n q := .inr ⟨q, hlo, hhi, rfl⟩

/-! ### The condition -/

private theorem framed_of_mappable {fs : List Nat} (h : Mappable s start n tables)
    (hfs : takeFrames n s.pmm = some (fs, s'.pmm))
    (hs : s' = { s with mem := rangeMem s.mem s.cr3 tables onlyKernelMode start fs, pmm := s'.pmm }) :
    Framed s s' start n fs := by
  have hcr3 : s'.cr3 = s.cr3 := by rw [hs]
  have hmem : s'.mem = rangeMem s.mem s.cr3 tables onlyKernelMode start fs := by rw [hs]
  have hlength := Pmm.takeFrames_length hfs
  obtain ⟨hnodup, hbits⟩ := Pmm.takeFrames_free hfs
  refine ⟨hfs, hnodup, ?_, ?_⟩
  · intro i f hi
    have hin : i < n := by
      have := (List.getElem?_eq_some_iff.1 hi).1
      omega
    have hpages := h.pages
    have huse : InUse s start n (start + i) := inUse_of_range (by omega) (by omega)
    have hlt : f < 0x100000 := (hbits f (List.mem_of_getElem? hi)).2
    subst hlength
    -- a later page has another slot
    have hlast : ∀ k, i < k → k < fs.length → slot s.mem s.cr3 tables (start + k) ≠ slot s.mem s.cr3 tables (start + i) := by
      intro k hik hk hsame
      have := h.slots (start + k) (start + i) (by omega) (by omega) (by omega) huse hsame
      omega
    obtain ⟨hpresent, haddress, -⟩ := @rangeMem_slot s.mem s.cr3 tables start i f onlyKernelMode fs h.toPlain hi hlast
    rw [hcr3, hmem, translate_rangeMem h.toOrdinary rfl huse]
    dsimp only
    rw [if_pos hpresent, haddress]
    exact congrArg some (Nat.mod_eq_of_lt hlt)
  · intro w hw hout hwindow
    rw [hcr3, hmem]
    by_cases hlow : w < 0xFFC00
    · by_cases huse : InUse s start n w
      · rw [translate_rangeMem h.toOrdinary hlength huse]
        dsimp only
        rw [h.toOrdinary.kept hlength hlow huse fun q hlo hhi hsame => by
          have := h.slots q w hlo hhi hlow huse hsame
          omega]
        by_cases hpresent : (s.mem s.cr3 (w / 1024)).present = true
        · rw [tableOf_of_present hpresent]
          unfold translate PAGES_PER_TABLE
          dsimp only
          rw [if_pos hpresent]
        · have hstale := h.stale w hlow hout (Bool.eq_false_of_not_eq_true hpresent) (huse.resolve_left hpresent)
          rw [hstale]
          unfold translate PAGES_PER_TABLE
          dsimp only
          rw [if_neg hpresent]
          rfl
      · obtain ⟨hnew, hold⟩ := @translate_rangeMem_none s start n tables w onlyKernelMode fs h.toOrdinary hlength huse
        rw [hnew, hold]
    · -- a page of the recursive entry
      obtain ⟨j, rfl⟩ : ∃ j, w = 0xFFC00 + j := ⟨w - 0xFFC00, by omega⟩
      subst hlength
      obtain ⟨hiff, hkept, -⟩ := @rangeMem_directory s.mem s.cr3 tables start j onlyKernelMode fs h.toPlain
      rw [translate_window (rangeMem_self h.toPlain) (by omega), translate_window h.self (by omega)]
      by_cases hpresent : (s.mem s.cr3 j).present = true
      · rw [if_pos hpresent, if_pos (hiff.2 (.inl hpresent)), hkept hpresent]
      · rw [if_neg hpresent, if_neg]
        intro hnew
        obtain ⟨q, hlo, hhi, hq⟩ := (hiff.1 hnew).resolve_left hpresent
        exact hwindow ⟨q, hlo, hhi, by rw [hq]⟩

private theorem mappable_of_framed {fs : List Nat} (h : Ordinary s start n tables)
    (hfree : ∀ w f, w < 0x100000 → translate s.mem s.cr3 w = some f → occupied s.pmm f = true)
    (hs : s' = { s with mem := rangeMem s.mem s.cr3 tables onlyKernelMode start fs, pmm := s'.pmm })
    (hframed : Framed s s' start n fs) : Mappable s start n tables := by
  have hcr3 : s'.cr3 = s.cr3 := by rw [hs]
  have hmem : s'.mem = rangeMem s.mem s.cr3 tables onlyKernelMode start fs := by rw [hs]
  obtain ⟨hfs, hnodup, hown, houtside⟩ := hframed
  have hlength := Pmm.takeFrames_length hfs
  have hpages := h.pages
  have hunfree := (Pmm.takeFrames_free hfs).2
  rw [hcr3, hmem] at hown houtside
  have hwindow : ∀ w, w < 0xFFC00 → ¬ TableWindow start n w := by
    rintro w hw ⟨q, -, -, rfl⟩
    omega
  -- pages that share a slot are translated to one frame
  have hslots : ∀ q w, start ≤ q → q < start + n → w < 0xFFC00 → InUse s start n w →
      slot s.mem s.cr3 tables q = slot s.mem s.cr3 tables w → w = q := by
    intro q w hlo hhi hw huse hsame
    obtain ⟨htable, hindex⟩ := slot_eq_slot.1 hsame
    obtain ⟨i, rfl⟩ : ∃ i, q = start + i := ⟨q - start, by omega⟩
    obtain ⟨f, hf⟩ : ∃ f, fs[i]? = some f := ⟨_, List.getElem?_eq_getElem (by omega)⟩
    have hq := hown i f hf
    have hwq : translate (rangeMem s.mem s.cr3 tables onlyKernelMode start fs) s.cr3 w = some f := by
      rw [translate_rangeMem h hlength (inUse_of_range hlo hhi)] at hq
      rw [translate_rangeMem h hlength huse, ← htable, ← hindex]
      exact hq
    by_cases hin : start ≤ w ∧ w < start + n
    · obtain ⟨i', rfl⟩ : ∃ i', w = start + i' := ⟨w - start, by omega⟩
      obtain ⟨f', hf'⟩ : ∃ f', fs[i']? = some f' := ⟨_, List.getElem?_eq_getElem (by omega)⟩
      have hw' := hown i' f' hf'
      rw [hwq, Option.some.injEq] at hw'
      rw [← hw', ← hf] at hf'
      rw [(List.getElem?_inj (by omega) hnodup).1 hf']
    · -- outside the range it was translated to a frame that was free
      have hold := houtside w (by omega) (by omega) (hwindow w hw)
      rw [hwq] at hold
      have hocc := hfree w f (by omega) hold.symm
      rw [(hunfree f (List.mem_of_getElem? hf)).1] at hocc
      cases hocc
  refine ⟨h, hslots, ?_⟩
  intro w hw hout habsent htouched
  have huse : InUse s start n w := .inr htouched
  have hkept := @Ordinary.kept s start n tables w onlyKernelMode fs h hlength hw huse fun q hlo hhi hsame => by
    have := hslots q w hlo hhi hw huse hsame
    omega
  have hsame := houtside w (by omega) hout (hwindow w hw)
  have hold : translate s.mem s.cr3 w = none := by
    unfold translate PAGES_PER_TABLE
    dsimp only
    rw [if_neg (by rw [habsent]; decide)]
  rw [translate_rangeMem h hlength huse, hold] at hsame
  dsimp only at hsame
  rw [hkept] at hsame
  by_contra hpresent
  rw [if_pos (Bool.eq_true_of_not_eq_false hpresent)] at hsame
  cases hsame

/-- Where no page is mapped to a free frame, mapping a range gives every page its own frame and leaves the others when it
is empty or `Mappable`, and only then below the recursive entry.  The pages through which its tables are seen stay too exactly when the tables were there. -/
theorem range_framed (s s' : Space) (start n tables : Nat) (onlyKernelMode : Bool)
    (hfree : ∀ w f, w < 0x100000 → translate s.mem s.cr3 w = some f → occupied s.pmm f = true)
    (hrun : s.allocateMultiplePages start n onlyKernelMode tables = some (true, s')) :
    (n = 0 ∨ Mappable s start n tables → ∃ fs, Framed s s' start n fs) ∧
      (Ordinary s start n tables → (∃ fs, Framed s s' start n fs) → Mappable s start n tables) ∧
      (Mappable s start n tables →
        ((∀ w, TableWindow start n w → translate s'.mem s'.cr3 w = translate s.mem s.cr3 w) ↔
          ∀ j, Touched start n j → (s.mem s.cr3 j).present = true)) := by
  have hresult : Ordinary s start n tables → ∃ fs p, takeFrames n s.pmm = some (fs, p) ∧
      s' = { s with mem := rangeMem s.mem s.cr3 tables onlyKernelMode start fs, pmm := p } := by
    intro h
    obtain ⟨-, hresult⟩ | ⟨hfalse, -⟩ := Space.allocateMultiplePages_cases onlyKernelMode h.toPlain hrun
    · exact hresult
    · cases hfalse
  refine ⟨?_, ?_, ?_⟩
  · rintro (rfl | h)
    · cases hrun
      refine ⟨[], rfl, List.nodup_nil, ?_, fun w _ _ _ => rfl⟩
      intro i f hi
      cases hi
    · obtain ⟨fs, p, hfs, rfl⟩ := hresult h.toOrdinary
      exact ⟨fs, framed_of_mappable h hfs rfl⟩
  · rintro h ⟨fs', hframed⟩
    obtain ⟨fs, p, hfs, rfl⟩ := hresult h
    have hsame := hframed.taken
    rw [hfs] at hsame
    cases hsame
    exact mappable_of_framed h hfree rfl hframed
  · intro h
    obtain ⟨fs, p, hfs, rfl⟩ := hresult h.toOrdinary
    obtain rfl := Pmm.takeFrames_length hfs
    have hpages := h.pages
    have hwindows : ∀ j, j < 1023 → (translate (rangeMem s.mem s.cr3 tables onlyKernelMode start fs) s.cr3 (0xFFC00 + j) =
        translate s.mem s.cr3 (0xFFC00 + j) ↔ (Touched start fs.length j → (s.mem s.cr3 j).present = true)) := by
      intro j hj
      obtain ⟨hiff, hkept, -⟩ := @rangeMem_directory s.mem s.cr3 tables start j onlyKernelMode fs h.toPlain
      rw [translate_window (rangeMem_self h.toPlain) (by omega), translate_window h.self (by omega)]
      by_cases hpresent : (s.mem s.cr3 j).present = true
      · rw [if_pos hpresent, if_pos (hiff.2 (.inl hpresent)), hkept hpresent]
        exact iff_of_true rfl fun _ => hpresent
      · rw [if_neg hpresent]
        by_cases htouched : Touched start fs.length j
        · rw [if_pos (hiff.2 (.inr htouched))]
          exact iff_of_false (by simp) fun himp => hpresent (himp htouched)
        · rw [if_neg fun hnew => (hiff.1 hnew).elim hpresent htouched]
          exact iff_of_true rfl fun htouched' => absurd htouched' htouched
    constructor
    · rintro hall j ⟨q, hlo, hhi, rfl⟩
      exact (hwindows _ (by omega)).1 (hall _ ⟨q, hlo, hhi, rfl⟩) ⟨q, hlo, hhi, rfl⟩
    · rintro hall w ⟨q, hlo, hhi, rfl⟩
      exact (hwindows _ (by omega)).2 (hall _)

/-! ### A directory without tables -/

/-- A directory that maps itself only. -/
def bareDirectory : Memory := fun f i => if f = 6 ∧ i = 1023 then System.identityEntry 6 else .zero

def bare (p : PmmInfo) : Space where
  mem := bareDirectory
  pmm := p
  cr3 := 6
  currentPageDirectory := Space.kernelPd
  currHeapEnd := KERNEL_CODE_END

/-- The address of the one table that is supplied. -/
def suppliedTable : Nat := 0x2000 * PAGE_SIZE

private theorem bare_absent {p : PmmInfo} (hj : j < 1023) : ((bare p).mem (bare p).cr3 j).present = false := by
  show (bareDirectory 6 j).present = false
  unfold bareDirectory
  rw [if_neg (by omega)]
  rfl

private theorem bare_tableOf {p : PmmInfo} (hw : w < 0xC0000) :
    tableOf (bare p).mem (bare p).cr3 suppliedTable w = 0x2000 := by
  have habsent := @bare_absent (w / 1024) p (by omega)
  have hlower : ¬ RELOCATION_OFFSET / PAGE_SIZE ≤ w := by
    show ¬ 0xC0000 ≤ w
    omega
  unfold tableOf tableFor
  rw [if_neg (by rw [habsent]; decide)]
  unfold Space.newTable
  rw [if_neg hlower]
  rfl

private theorem bare_ordinary (p : PmmInfo) (h : start + n ≤ 0xC0000) : Ordinary (bare p) start n suppliedTable := by
  refine ⟨⟨⟨rfl, rfl⟩, by omega, fun q hlo hhi => ?_⟩, fun i hi hpresent => ?_⟩
  · rw [bare_tableOf (by omega)]
    show 0x2000 ≠ 6
    decide
  · rw [bare_absent hi] at hpresent
    cases hpresent

private theorem bare_free {p : PmmInfo} {mbi : Pmm.MultibootInfo} (hinit : pmmInit .static (some mbi) = some (.success, p))
    (w f : Nat) (hw : w < 0x100000) (htranslate : translate (bare p).mem (bare p).cr3 w = some f) :
    occupied (bare p).pmm f = true := by
  obtain ⟨hpresent, -, haddress⟩ := translate_eq_some.1 htranslate
  have hlast : w / 1024 = 1023 := by
    by_contra hne
    rw [bare_absent (by omega)] at hpresent
    cases hpresent
  rw [hlast] at haddress
  have hentry : ((bare p).mem (bare p).cr3 1023).address = 6 := rfl
  rw [hentry] at haddress
  refine Pmm.pmmInit_low hinit ?_
  rw [← haddress]
  show (bareDirectory 6 (w % 1024)).address < 0x1800
  unfold bareDirectory
  split <;> decide

private theorem bare_mappable (p : PmmInfo) : Mappable (bare p) 1024 2 suppliedTable := by
  have hentry : ∀ w, w < 0xFFC00 → InUse (bare p) 1024 2 w → w / 1024 = 1 := by
    rintro w hw (hpresent | ⟨q, hlo, hhi, hq⟩)
    · rw [bare_absent (by omega)] at hpresent
      cases hpresent
    · omega
  refine ⟨bare_ordinary p (by decide), ?_, ?_⟩
  · intro q w hlo hhi hw huse hsame
    have := (slot_eq_slot.1 hsame).2
    have := hentry w hw huse
    omega
  · intro w hw hout habsent htouched
    rw [bare_tableOf (by have := hentry w hw (.inr htouched); omega)]
    rfl

theorem range_framed_twoPages : ∃ p s', pmmInit .static (some bigMachine) = some (.success, p) ∧
    (bare p).allocateMultiplePages 1024 2 false suppliedTable = some (true, s') ∧ ∃ fs, Framed (bare p) s' 1024 2 fs := by
  obtain ⟨p, hinit, htake⟩ := Pmm.exists_takeFrames_bigMachine
  obtain ⟨fs, p', hfs⟩ := htake 2 (by decide)
  have hmappable := bare_mappable p
  have hrun := Space.allocateMultiplePages_true (s := bare p) false hmappable.toPlain hfs
  exact ⟨p, _, hinit, hrun, (range_framed _ _ 1024 2 _ false (bare_free hinit) hrun).1 (.inr hmappable)⟩

/-- With one table for two entries of the directory, mapping page 1024 maps page 0 too. -/
theorem not_framed : ∃ p s', pmmInit .static (some bigMachine) = some (.success, p) ∧
    (bare p).allocateMultiplePages 1023 2 false suppliedTable = some (true, s') ∧
    ¬ ∃ fs, Framed (bare p) s' 1023 2 fs := by
  obtain ⟨p, hinit, htake⟩ := Pmm.exists_takeFrames_bigMachine
  obtain ⟨fs, p', hfs⟩ := htake 2 (by decide)
  have hordinary := @bare_ordinary 1023 2 p (by decide)
  refine ⟨p, _, hinit, Space.allocateMultiplePages_true (s := bare p) false hordinary.toPlain hfs, ?_⟩
  rintro ⟨fs', hframed⟩
  have hsame := hframed.taken
  rw [show (bare p).pmm = p from rfl, hfs] at hsame
  cases hsame
  have hmappable := mappable_of_framed hordinary (bare_free hinit) rfl hframed
  have := hmappable.slots 1024 0 (by decide) (by decide) (by decide) (.inr ⟨1023, by decide, by decide, by decide⟩)
    (slot_eq_slot.2 ⟨by rw [bare_tableOf (by decide), bare_tableOf (by decide)], by decide⟩)
  omega

end DBolOS.Paging
