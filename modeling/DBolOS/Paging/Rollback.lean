import DBolOS.Paging.Framed

/-!
# Running out of frames

Where `allocate_multiple_pages` runs out of frames it deallocates the pages it has mapped.  A deallocation clears the
entry of its page, keeps the bit of the frame that the entry holds and clears the other bits of its word.  All of this
together restores the frames and the translations exactly when the tables were there, the pages were not mapped, and
every frame taken lies in a word that was free and is given back together with another frame of it (`rollback`).
-/

namespace DBolOS.Paging

open Pmm (PmmInfo pmmAllocatePage pmmDeallocatePage takeFrames occupied)

variable {mem : Memory} {s s' : Space} {c start tables v w n q i g j f : Nat} {onlyKernelMode : Bool} {p p' : PmmInfo}
  {fs : List Nat}

/-! ### Deallocating a range -/

/-- The memory after the entry of page `v` is cleared. -/
def clearPage (mem : Memory) (c tables v : Nat) : Memory := mem.set (tableOf mem c tables v) (v % 1024)
  { mem (tableOf mem c tables v) (v % 1024) with present := false }

/-- The memory after the entries of the `n` pages from `v` on are cleared. -/
def clearMem (mem : Memory) (c tables : Nat) : Nat → Nat → Memory
  | _, 0 => mem
  | v, n + 1 => clearMem (clearPage mem c tables v) c tables (v + 1) n

/-- The frame that the entry of a page holds. -/
def heldFrame (mem : Memory) (c tables w : Nat) : Nat := (mem (tableOf mem c tables w) (w % 1024)).address

private theorem clearPage_directory (hne : tableOf mem c tables v ≠ c) (j : Nat) :
    clearPage mem c tables v c j = mem c j :=
  if_neg fun hand => hne hand.1.symm

private theorem tableOf_congr_directory {mem' : Memory} (h : ∀ j, mem' c j = mem c j) (w : Nat) :
    tableOf mem' c tables w = tableOf mem c tables w := by
  unfold tableOf tableFor
  rw [h]

private theorem clearPage_of_ne (hslot : slot mem c tables v ≠ (g, j)) : clearPage mem c tables v g j = mem g j :=
  if_neg fun hand => hslot (Prod.ext hand.1.symm hand.2.symm)

private theorem clearPage_slot : (clearPage mem c tables v (tableOf mem c tables v) (v % 1024)).present = false := by
  unfold clearPage Memory.set
  rw [if_pos ⟨rfl, rfl⟩]

/-- No frame is changed in an entry, and none is made present. -/
private theorem clearPage_entry (g j : Nat) : (clearPage mem c tables v g j).address = (mem g j).address ∧
    ((mem g j).present = false → (clearPage mem c tables v g j).present = false) := by
  unfold clearPage Memory.set
  split
  · rename_i h
    rw [h.1, h.2]
    exact ⟨rfl, fun _ => rfl⟩
  · exact ⟨rfl, id⟩

/-- The tables of the range are there, and none of them is the directory. -/
structure Cleared (mem : Memory) (c tables v n : Nat) : Prop extends Plain mem c tables v n where
  present : ∀ q, v ≤ q → q < v + n → (mem c (q / 1024)).present = true

private theorem Cleared.head (h : Cleared mem c tables v (n + 1)) : tableOf mem c tables v ≠ c :=
  h.apart v (Nat.le_refl v) (by omega)

private theorem Cleared.next (h : Cleared mem c tables v (n + 1)) :
    Cleared (clearPage mem c tables v) c tables (v + 1) n := by
  have hdir := clearPage_directory h.head
  have hpages := h.pages
  refine ⟨⟨⟨?_, ?_⟩, by omega, fun q hlo hhi => ?_⟩, fun q hlo hhi => ?_⟩
  · rw [hdir]
    exact h.self.present
  · rw [hdir]
    exact h.self.self
  · rw [tableOf_congr_directory hdir]
    exact h.apart q (by omega) (by omega)
  · rw [hdir]
    exact h.present q (by omega) (by omega)

theorem clearMem_directory (h : Cleared mem c tables v n) (j : Nat) : clearMem mem c tables v n c j = mem c j := by
  induction n generalizing mem v with
  | zero => rfl
  | succ n ih =>
    refine (ih h.next).trans ?_
    exact clearPage_directory h.head j

theorem Cleared.selfMapped (h : Cleared mem c tables v n) : SelfMapped (clearMem mem c tables v n) c := by
  have hlast := clearMem_directory h 1023
  exact ⟨by rw [hlast]; exact h.self.present, by rw [hlast]; exact h.self.self⟩

/-- The other entries of the tables stay. -/
theorem clearMem_of_ne (h : Cleared mem c tables v n)
    (hslot : ∀ q, v ≤ q → q < v + n → slot mem c tables q ≠ (g, j)) : clearMem mem c tables v n g j = mem g j := by
  induction n generalizing mem v with
  | zero => rfl
  | succ n ih =>
    refine (ih h.next ?_).trans (clearPage_of_ne (hslot v (Nat.le_refl v) (by omega)))
    intro q hlo hhi
    unfold slot
    rw [tableOf_congr_directory (clearPage_directory h.head)]
    exact hslot q (by omega) (by omega)

private theorem clearMem_absent (h : Cleared mem c tables v n) (habsent : (mem g j).present = false) :
    (clearMem mem c tables v n g j).present = false := by
  induction n generalizing mem v with
  | zero => exact habsent
  | succ n ih => exact ih h.next ((clearPage_entry g j).2 habsent)

private theorem clearMem_slot (h : Cleared mem c tables v n) (hlo : v ≤ q) (hhi : q < v + n) :
    (clearMem mem c tables v n (tableOf mem c tables q) (q % 1024)).present = false := by
  induction n generalizing mem v with
  | zero => omega
  | succ n ih =>
    unfold clearMem
    rcases Nat.eq_or_lt_of_le hlo with rfl | hlt
    · exact clearMem_absent h.next clearPage_slot
    · have := ih h.next hlt (by omega)
      rwa [tableOf_congr_directory (clearPage_directory h.head)] at this

namespace Space

/-- What a deallocation of `n` pages does to the entries and to the frames they hold. -/
private theorem deallocatePages_range (h : Cleared s.mem s.cr3 tables v n)
    (hframes : ∀ q, v ≤ q → q < v + n → heldFrame s.mem s.cr3 tables q < 0x100000) :
    ∃ p, deallocatePages n v s = some { s with mem := clearMem s.mem s.cr3 tables v n, pmm := p } ∧
      ∀ j, occupied p j = true ↔ occupied s.pmm j = true ∧ ∀ q, v ≤ q → q < v + n →
        heldFrame s.mem s.cr3 tables q / 32 = j / 32 → heldFrame s.mem s.cr3 tables q = j := by
  induction n generalizing s v with
  | zero => exact ⟨s.pmm, rfl, fun j => (and_iff_left fun q hlo hhi => by omega).symm⟩
  | succ n ih =>
    have hpages := h.pages
    have hpresent := h.present v (Nat.le_refl v) (by omega)
    have hlocate := locate_ptEntry h.self (by omega) hpresent
    rw [← @tableOf_of_present s.mem s.cr3 tables v hpresent] at hlocate
    have hframe := hframes v (Nat.le_refl v) (by omega)
    unfold heldFrame at hframe
    obtain ⟨p₁, hp₁⟩ : ∃ p₁, pmmDeallocatePage s.pmm (s.mem (tableOf s.mem s.cr3 tables v) (v % 1024)).address = some p₁ := by
      have hsize : Pmm.bitmapSize = 32768 := by decide
      unfold pmmDeallocatePage Pmm.setFree Pmm.setBitStatus
      dsimp only
      rw [if_pos (by omega)]
      exact ⟨_, rfl⟩
    have hdir := clearPage_directory h.head
    have htable := @tableOf_congr_directory s.mem s.cr3 tables _ hdir
    obtain ⟨p, hp, hocc⟩ := @ih { s with mem := clearPage s.mem s.cr3 tables v, pmm := p₁ } (v + 1) h.next (by
      intro q hlo hhi
      unfold heldFrame
      rw [htable, (clearPage_entry _ _).1]
      exact hframes q (by omega) (by omega))
    refine ⟨p, ?_, ?_⟩
    · unfold deallocatePages deallocateVirtualPage
      rw [load_eq hlocate]
      simp only [Option.bind_eq_bind, Option.bind_some, hp₁]
      rw [modify_eq (s := { s with pmm := p₁ }) hlocate, Option.bind_some]
      exact hp
    · intro j
      rw [hocc]
      unfold heldFrame
      simp only [htable, (clearPage_entry _ _).1]
      rw [Pmm.occupied_pmmDeallocatePage hp₁]
      constructor
      · rintro ⟨hj, hrest⟩
        split at hj
        · rename_i hword
          rw [Bool.and_eq_true, decide_eq_true_eq] at hj
          refine ⟨hj.2, fun q hlo hhi hq => ?_⟩
          rcases Nat.eq_or_lt_of_le hlo with rfl | hlt
          · exact hj.1.symm
          · exact hrest q hlt (by omega) hq
        · rename_i hword
          refine ⟨hj, fun q hlo hhi hq => ?_⟩
          rcases Nat.eq_or_lt_of_le hlo with rfl | hlt
          · exact absurd hq.symm hword
          · exact hrest q hlt (by omega) hq
      · rintro ⟨hj, hall⟩
        refine ⟨?_, fun q hlo hhi => hall q (by omega) (by omega)⟩
        split
        · rename_i hword
          rw [Bool.and_eq_true, decide_eq_true_eq]
          exact ⟨(hall v (Nat.le_refl v) (by omega) hword.symm).symm, hj⟩
        · exact hj

end Space

/-! ### Nothing changed -/

/-- The free frames and all translations are the same. -/
structure Unchanged (s s' : Space) : Prop where
  free : ∀ f, f < 0x100000 → occupied s'.pmm f = occupied s.pmm f
  translations : ∀ w, w < 0x100000 → translate s'.mem s'.cr3 w = translate s.mem s.cr3 w

/-- Frame `f` is given back: of the frames `fs` it is the last one for its slot. -/
def GivenBack (s : Space) (start tables : Nat) (fs : List Nat) (f : Nat) : Prop :=
  ∃ k, fs[k]? = some f ∧ ∀ k', k < k' → k' < fs.length →
    slot s.mem s.cr3 tables (start + k') ≠ slot s.mem s.cr3 tables (start + k)

/-- What can be undone: `fs` are the frames that there are. -/
structure Restorable (s : Space) (start tables : Nat) (fs : List Nat) : Prop
    extends Ordinary s start fs.length tables where
  /-- The tables are there. -/
  present : ∀ j, Touched start fs.length j → (s.mem s.cr3 j).present = true
  /-- The pages are not mapped. -/
  unmapped : ∀ q, start ≤ q → q < start + fs.length → translate s.mem s.cr3 q = none
  /-- With every frame taken another frame of its word is given back. -/
  shared : ∀ f ∈ fs, ∃ g, GivenBack s start tables fs g ∧ g / 32 = f / 32 ∧ g ≠ f
  /-- No frame of such a word was occupied. -/
  alone : ∀ g, GivenBack s start tables fs g → ∀ j, j / 32 = g / 32 → occupied s.pmm j = false

section Rollback

variable (s : Space) (start tables : Nat) (onlyKernelMode : Bool)

/-- The frames in the entries of the pages are those that are given back. -/
private theorem heldFrame_iff {fs : List Nat} (h : Ordinary s start fs.length tables) (hlt : ∀ f ∈ fs, f < 0x100000)
    (f : Nat) : (∃ q, start ≤ q ∧ q < start + fs.length ∧
      heldFrame (rangeMem s.mem s.cr3 tables onlyKernelMode start fs) s.cr3 tables q = f) ↔
        GivenBack s start tables fs f := by
  obtain ⟨-, -, htable⟩ := @rangeMem_directory s.mem s.cr3 tables start 0 onlyKernelMode fs h.toPlain
  unfold heldFrame
  simp only [htable]
  constructor
  · rintro ⟨q, hlo, hhi, rfl⟩
    -- the last page with this slot
    let P := fun k => slot s.mem s.cr3 tables (start + k) = slot s.mem s.cr3 tables q
    classical
    obtain ⟨k, hle, hk, hmax⟩ : ∃ k, k ≤ fs.length - 1 ∧ P k ∧ ∀ k', k < k' → k' < fs.length → ¬ P k' := by
      have hq : P (q - start) := by
        show slot s.mem s.cr3 tables (start + (q - start)) = _
        rw [Nat.add_sub_of_le hlo]
      refine ⟨Nat.findGreatest P (fs.length - 1), Nat.findGreatest_le _, ?_, ?_⟩
      · exact Nat.findGreatest_spec (m := q - start) (by omega) hq
      · intro k' hlt' hk'
        exact Nat.findGreatest_is_greatest hlt' (by omega)
    obtain ⟨f, hf⟩ : ∃ f, fs[k]? = some f := ⟨_, List.getElem?_eq_getElem (by omega)⟩
    have hlast : ∀ k', k < k' → k' < fs.length →
        slot s.mem s.cr3 tables (start + k') ≠ slot s.mem s.cr3 tables (start + k) := by
      intro k' hlt' hk' hsame
      exact hmax k' hlt' hk' (hsame.trans hk)
    obtain ⟨-, haddress, -⟩ := @rangeMem_slot s.mem s.cr3 tables start k f onlyKernelMode fs h.toPlain hf hlast
    obtain ⟨htab, hindex⟩ := slot_eq_slot.1 hk
    rw [htab, hindex] at haddress
    rw [haddress, show bits20 f = f from Nat.mod_eq_of_lt (hlt f (List.mem_of_getElem? hf))]
    exact ⟨k, hf, hlast⟩
  · rintro ⟨k, hf, hlast⟩
    have hk := (List.getElem?_eq_some_iff.1 hf).1
    obtain ⟨-, haddress, -⟩ := @rangeMem_slot s.mem s.cr3 tables start k f onlyKernelMode fs h.toPlain hf hlast
    refine ⟨start + k, by omega, by omega, ?_⟩
    rw [haddress]
    exact Nat.mod_eq_of_lt (hlt f (List.mem_of_getElem? hf))

/-- After the rollback a page is not mapped if its slot is one of the range, and mapped as before else. -/
private theorem translate_rollback {fs : List Nat} (h : Ordinary s start fs.length tables)
    (hcleared : Cleared (rangeMem s.mem s.cr3 tables onlyKernelMode start fs) s.cr3 tables start fs.length) {w : Nat}
    (hw : w < 0xFFC00) (hpresent : (s.mem s.cr3 (w / 1024)).present = true) :
    ((∃ q, start ≤ q ∧ q < start + fs.length ∧ slot s.mem s.cr3 tables q = slot s.mem s.cr3 tables w) →
        translate (clearMem (rangeMem s.mem s.cr3 tables onlyKernelMode start fs) s.cr3 tables start fs.length) s.cr3 w =
          none) ∧
      ((∀ q, start ≤ q → q < start + fs.length → slot s.mem s.cr3 tables q ≠ slot s.mem s.cr3 tables w) →
        translate (clearMem (rangeMem s.mem s.cr3 tables onlyKernelMode start fs) s.cr3 tables start fs.length) s.cr3 w =
          translate s.mem s.cr3 w) := by
  obtain ⟨hiff, hkept, htable⟩ := @rangeMem_directory s.mem s.cr3 tables start (w / 1024) onlyKernelMode fs h.toPlain
  have hentry := clearMem_directory hcleared (w / 1024)
  have haddress : (rangeMem s.mem s.cr3 tables onlyKernelMode start fs s.cr3 (w / 1024)).address =
      tableOf s.mem s.cr3 tables w := by
    rw [hkept hpresent, tableOf_of_present hpresent]
  have htranslate : translate (clearMem (rangeMem s.mem s.cr3 tables onlyKernelMode start fs) s.cr3 tables start
      fs.length) s.cr3 w =
      let e := clearMem (rangeMem s.mem s.cr3 tables onlyKernelMode start fs) s.cr3 tables start fs.length
        (tableOf s.mem s.cr3 tables w) (w % 1024)
      if e.present then some e.address else none := by
    unfold translate PAGES_PER_TABLE
    dsimp only
    rw [hentry, if_pos (hiff.2 (.inl hpresent)), haddress]
  rw [htranslate]
  constructor
  · rintro ⟨q, hlo, hhi, hsame⟩
    obtain ⟨htab, hindex⟩ := slot_eq_slot.1 hsame
    have hclear := clearMem_slot hcleared hlo hhi
    rw [htable, htab, hindex] at hclear
    dsimp only
    rw [if_neg (by rw [hclear]; decide)]
  · intro hother
    have hsame : clearMem (rangeMem s.mem s.cr3 tables onlyKernelMode start fs) s.cr3 tables start fs.length
        (tableOf s.mem s.cr3 tables w) (w % 1024) = s.mem (tableOf s.mem s.cr3 tables w) (w % 1024) := by
      have hne : tableOf s.mem s.cr3 tables w ≠ s.cr3 := by
        rw [tableOf_of_present hpresent]
        exact h.others _ (by omega) hpresent
      refine (clearMem_of_ne hcleared fun q hlo hhi => ?_).trans (rangeMem_of_ne h.toPlain hne hother)
      unfold slot
      rw [htable]
      exact hother q hlo hhi
    dsimp only
    rw [hsame, tableOf_of_present hpresent]
    unfold translate PAGES_PER_TABLE
    dsimp only
    rw [if_pos hpresent]

/-- What the loop leaves when it has run out of frames. -/
private theorem exists_rollback {fs : List Nat} (h : Ordinary s start fs.length tables) {p : PmmInfo}
    (hfs : takeFrames fs.length s.pmm = some (fs, p)) :
    Cleared (rangeMem s.mem s.cr3 tables onlyKernelMode start fs) s.cr3 tables start fs.length ∧
      ∃ p', Space.deallocatePages fs.length start
          { s with mem := rangeMem s.mem s.cr3 tables onlyKernelMode start fs, pmm := p } =
          some { s with
            mem := clearMem (rangeMem s.mem s.cr3 tables onlyKernelMode start fs) s.cr3 tables start fs.length
            pmm := p' } ∧
        ∀ j, occupied p' j = true ↔ (j ∈ fs ∨ occupied s.pmm j = true) ∧
          ∀ g, GivenBack s start tables fs g → g / 32 = j / 32 → g = j := by
  have hlt : ∀ f ∈ fs, f < 0x100000 := fun f hf => ((Pmm.takeFrames_free hfs).2 f hf).2
  have hheld := heldFrame_iff s start tables onlyKernelMode h hlt
  have hcleared : Cleared (rangeMem s.mem s.cr3 tables onlyKernelMode start fs) s.cr3 tables start fs.length := by
    refine ⟨⟨rangeMem_self h.toPlain, h.pages, fun q hlo hhi => ?_⟩, fun q hlo hhi => ?_⟩
    · rw [(rangeMem_directory (j := 0) h.toPlain).2.2]
      exact h.apart q hlo hhi
    · exact (rangeMem_directory h.toPlain).1.2 (.inr ⟨q, hlo, hhi, rfl⟩)
  obtain ⟨p', hp', hocc⟩ := @Space.deallocatePages_range
    { s with mem := rangeMem s.mem s.cr3 tables onlyKernelMode start fs, pmm := p } tables start fs.length hcleared
    fun q hlo hhi => by
      obtain ⟨k, hk, -⟩ := (hheld _).1 ⟨q, hlo, hhi, rfl⟩
      exact hlt _ (List.mem_of_getElem? hk)
  refine ⟨hcleared, p', hp', fun j => ?_⟩
  rw [hocc]
  show occupied p j = true ∧ _ ↔ _
  rw [Pmm.occupied_takeFrames hfs, Bool.or_eq_true, decide_eq_true_eq]
  refine and_congr_right fun _ => ?_
  constructor
  · intro hall g hg
    obtain ⟨q, hlo, hhi, rfl⟩ := (hheld g).2 hg
    exact hall q hlo hhi
  · intro hall q hlo hhi
    exact hall _ ((hheld _).1 ⟨q, hlo, hhi, rfl⟩)

/-- Frames that are given back in pairs, in words that were free, are free again, and no other frame is. -/
private theorem frames_restored {fs : List Nat} {p' : PmmInfo}
    (hshared : ∀ f ∈ fs, ∃ g, GivenBack s start tables fs g ∧ g / 32 = f / 32 ∧ g ≠ f)
    (halone : ∀ g, GivenBack s start tables fs g → ∀ j, j / 32 = g / 32 → occupied s.pmm j = false)
    (hocc : ∀ j, occupied p' j = true ↔ (j ∈ fs ∨ occupied s.pmm j = true) ∧
      ∀ g, GivenBack s start tables fs g → g / 32 = j / 32 → g = j) (f : Nat) :
    occupied p' f = occupied s.pmm f := by
  rw [Bool.eq_iff_iff, hocc]
  constructor
  · rintro ⟨hf | hf, hall⟩
    · obtain ⟨g, hg, hword, hne⟩ := hshared f hf
      exact absurd (hall g hg hword) hne
    · exact hf
  · intro hf
    refine ⟨.inr hf, fun g hg hword => ?_⟩
    rw [halone g hg f hword.symm] at hf
    cases hf

/-- The frames are restored when those taken are given back in pairs, in words that were free. -/
private theorem frames_restored_iff {fs : List Nat} {p p' : PmmInfo} (hfs : takeFrames fs.length s.pmm = some (fs, p))
    (hocc : ∀ j, occupied p' j = true ↔ (j ∈ fs ∨ occupied s.pmm j = true) ∧
      ∀ g, GivenBack s start tables fs g → g / 32 = j / 32 → g = j) :
    (∀ f, f < 0x100000 → occupied p' f = occupied s.pmm f) ↔
      (∀ f ∈ fs, ∃ g, GivenBack s start tables fs g ∧ g / 32 = f / 32 ∧ g ≠ f) ∧
        ∀ g, GivenBack s start tables fs g → ∀ j, j / 32 = g / 32 → occupied s.pmm j = false := by
  have hfree := (Pmm.takeFrames_free hfs).2
  have hgiven : ∀ g, GivenBack s start tables fs g → g ∈ fs := fun g ⟨k, hk, _⟩ => List.mem_of_getElem? hk
  have hsize : Pmm.bitmapSize * 32 = 0x100000 := by decide
  constructor
  · intro hsame
    refine ⟨fun f hf => ?_, fun g hg j hj => ?_⟩
    · obtain ⟨hunset, hlt⟩ := hfree f hf
      by_contra hnone
      push Not at hnone
      have hset := (hocc f).2 ⟨.inl hf, hnone⟩
      rw [hsame f (by omega), hunset] at hset
      cases hset
    · obtain ⟨hunset, hlt⟩ := hfree g (hgiven g hg)
      by_contra hj'
      have hold := Bool.eq_true_of_not_eq_false hj'
      have hnew := hsame j (by omega)
      rw [hold] at hnew
      have heq := ((hocc j).1 hnew).2 g hg hj.symm
      rw [← heq, hunset] at hold
      cases hold
  · rintro ⟨hshared, halone⟩ f -
    exact frames_restored s start tables hshared halone hocc f

/-- The translations are restored when the tables were there and the pages were not mapped. -/
private theorem translations_restored_iff {fs : List Nat} (h : Ordinary s start fs.length tables)
    (hcleared : Cleared (rangeMem s.mem s.cr3 tables onlyKernelMode start fs) s.cr3 tables start fs.length) :
    (∀ w, w < 0x100000 → translate
        (clearMem (rangeMem s.mem s.cr3 tables onlyKernelMode start fs) s.cr3 tables start fs.length) s.cr3 w =
        translate s.mem s.cr3 w) ↔
      (∀ j, Touched start fs.length j → (s.mem s.cr3 j).present = true) ∧
        ∀ q, start ≤ q → q < start + fs.length → translate s.mem s.cr3 q = none := by
  have hpages := h.pages
  have hself := hcleared.selfMapped
  have hrolled := @translate_rollback s start tables onlyKernelMode fs h hcleared
  have hdir := fun j => @rangeMem_directory s.mem s.cr3 tables start j onlyKernelMode fs h.toPlain
  constructor
  · intro hsame
    have hpresent : ∀ j, Touched start fs.length j → (s.mem s.cr3 j).present = true := by
      rintro j ⟨q, hlo, hhi, rfl⟩
      have hwindow := hsame (0xFFC00 + q / 1024) (by omega)
      rw [translate_window hself (by omega), clearMem_directory hcleared, translate_window h.self (by omega),
        if_pos ((hdir _).1.2 (.inr ⟨q, hlo, hhi, rfl⟩))] at hwindow
      by_contra habsent
      rw [if_neg habsent] at hwindow
      cases hwindow
    refine ⟨hpresent, fun q hlo hhi => ?_⟩
    rw [← hsame q (by omega)]
    exact (hrolled (by omega) (hpresent _ ⟨q, hlo, hhi, rfl⟩)).1 ⟨q, hlo, hhi, rfl⟩
  · rintro ⟨hpresent, hunmapped⟩ w hw
    by_cases hlow : w < 0xFFC00
    · by_cases hw' : (s.mem s.cr3 (w / 1024)).present = true
      · obtain ⟨hin, hout⟩ := hrolled hlow hw'
        by_cases hslot : ∃ q, start ≤ q ∧ q < start + fs.length ∧ slot s.mem s.cr3 tables q = slot s.mem s.cr3 tables w
        · -- the page was mapped by the entry of a page of the range, which was not there
          obtain ⟨q, hlo, hhi, hsame⟩ := hslot
          have hq := hunmapped q hlo hhi
          have hq' := hpresent _ ⟨q, hlo, hhi, rfl⟩
          obtain ⟨htab, hindex⟩ := slot_eq_slot.1 hsame
          rw [tableOf_of_present hq', tableOf_of_present hw'] at htab
          rw [hin ⟨q, hlo, hhi, hsame⟩]
          unfold translate PAGES_PER_TABLE at hq ⊢
          dsimp only at hq ⊢
          rw [if_pos hq', htab, hindex] at hq
          rw [if_pos hw', hq]
        · push Not at hslot
          exact hout hslot
      · have hnone : ¬ (clearMem (rangeMem s.mem s.cr3 tables onlyKernelMode start fs) s.cr3 tables start fs.length s.cr3
            (w / 1024)).present = true := by
          rw [clearMem_directory hcleared]
          intro hnew
          exact hw' (((hdir _).1.1 hnew).elim id (hpresent _))
        unfold translate PAGES_PER_TABLE
        dsimp only
        rw [if_neg hnone, if_neg hw']
    · obtain ⟨j, rfl⟩ : ∃ j, w = 0xFFC00 + j := ⟨w - 0xFFC00, by omega⟩
      rw [translate_window hself (by omega), clearMem_directory hcleared, translate_window h.self (by omega)]
      by_cases hj : (s.mem s.cr3 j).present = true
      · rw [if_pos hj, if_pos ((hdir j).1.2 (.inl hj)), (hdir j).2.1 hj]
      · rw [if_neg hj, if_neg fun hnew => hj (((hdir j).1.1 hnew).elim id (hpresent j))]

private theorem allocate_rolledBack {fs : List Nat} (h : Ordinary s start fs.length tables) {n : Nat} {p p₂ : PmmInfo}
    (hzero : occupied s.pmm 0 = true) (hfs : takeFrames fs.length s.pmm = some (fs, p)) (hn : fs.length < n)
    (hnext : pmmAllocatePage p = some (0, p₂)) :
    Cleared (rangeMem s.mem s.cr3 tables onlyKernelMode start fs) s.cr3 tables start fs.length ∧
      ∃ p', s.allocateMultiplePages start n onlyKernelMode tables = some (false, { s with
          mem := clearMem (rangeMem s.mem s.cr3 tables onlyKernelMode start fs) s.cr3 tables start fs.length
          pmm := p' }) ∧
        ∀ j, occupied p' j = true ↔ (j ∈ fs ∨ occupied s.pmm j = true) ∧
          ∀ g, GivenBack s start tables fs g → g / 32 = j / 32 → g = j := by
  obtain ⟨hcleared, p', hp', hocc⟩ := exists_rollback s start tables onlyKernelMode h hfs
  refine ⟨hcleared, p', ?_, hocc⟩
  -- what is handed out next is page `0`, which is occupied
  obtain ⟨-, rfl⟩ | ⟨hfree, -⟩ := Pmm.pmmAllocatePage_cases hnext
  · rw [Space.allocateMultiplePages_false onlyKernelMode h.toPlain hfs hn hnext, hp']
    rfl
  · rw [Pmm.occupied_takeFrames hfs, hzero, Bool.or_true] at hfree
    cases hfree

private theorem eq_of_noFrame {n : Nat} {s' : Space} (hzero : occupied s.pmm 0 = true) (hn : 0 < n)
    (hout : ∀ f p', pmmAllocatePage s.pmm = some (f, p') → f = 0)
    (hrun : s.allocateMultiplePages start n onlyKernelMode tables = some (false, s')) : s' = s := by
  obtain ⟨n, rfl⟩ : ∃ n', n = n' + 1 := ⟨n - 1, by omega⟩
  unfold Space.allocateMultiplePages Space.allocateLoop at hrun
  obtain ⟨⟨f, p⟩, hnext, hrun⟩ := Option.bind_eq_some_iff.1 hrun
  obtain rfl := hout f p hnext
  obtain ⟨-, rfl⟩ | ⟨hfree, -⟩ := Pmm.pmmAllocatePage_cases hnext
  · cases hrun
    rfl
  · rw [hzero] at hfree
    cases hfree

end Rollback

/-- The call that runs out of frames and takes everything back. -/
theorem Restorable.allocate_eq (h : Restorable s start tables fs) (onlyKernelMode : Bool) {p₂ : PmmInfo}
    (hzero : occupied s.pmm 0 = true) (hfs : takeFrames fs.length s.pmm = some (fs, p)) (hn : fs.length < n)
    (hnext : pmmAllocatePage p = some (0, p₂)) :
    ∃ p', s.allocateMultiplePages start n onlyKernelMode tables = some (false, { s with
        mem := clearMem (rangeMem s.mem s.cr3 tables onlyKernelMode start fs) s.cr3 tables start fs.length
        pmm := p' }) ∧
      Cleared (rangeMem s.mem s.cr3 tables onlyKernelMode start fs) s.cr3 tables start fs.length ∧
      (∀ f, occupied p' f = occupied s.pmm f) ∧
      ∀ w, w < 0x100000 → translate
        (clearMem (rangeMem s.mem s.cr3 tables onlyKernelMode start fs) s.cr3 tables start fs.length) s.cr3 w =
        translate s.mem s.cr3 w := by
  obtain ⟨hcleared, p', hrun, hocc⟩ := allocate_rolledBack s start tables onlyKernelMode h.toOrdinary hzero hfs hn hnext
  exact ⟨p', hrun, hcleared, frames_restored s start tables h.shared h.alone hocc,
    (translations_restored_iff s start tables onlyKernelMode h.toOrdinary hcleared).2 ⟨h.present, h.unmapped⟩⟩

/-- Where only the frames `fs` are there, and are too few, the range is unmapped again.  Everything is as before then
when there are none or this is `Restorable`, and only then for a range that ends below the recursive entry. -/
theorem rollback (s s' : Space) (start n tables : Nat) (onlyKernelMode : Bool) (fs : List Nat) (p : PmmInfo)
    (hzero : occupied s.pmm 0 = true) (hfs : takeFrames fs.length s.pmm = some (fs, p)) (hn : fs.length < n)
    (hout : ∀ f p', pmmAllocatePage p = some (f, p') → f = 0)
    (hrun : s.allocateMultiplePages start n onlyKernelMode tables = some (false, s')) :
    (fs = [] ∨ Restorable s start tables fs → Unchanged s s') ∧
      (Ordinary s start fs.length tables → Unchanged s s' → Restorable s start tables fs) := by
  have hexhausted : Ordinary s start fs.length tables → ∃ p₂, pmmAllocatePage p = some (0, p₂) := by
    intro h
    obtain ⟨f, p₂, hnext⟩ := Space.allocateMultiplePages_next onlyKernelMode h.toPlain hfs hn hrun
    obtain rfl := hout f p₂ hnext
    exact ⟨p₂, hnext⟩
  refine ⟨?_, fun h hsame => ?_⟩
  · rintro (rfl | h)
    · obtain rfl : s.pmm = p := congrArg Prod.snd (Option.some.inj hfs)
      obtain rfl := eq_of_noFrame s start tables onlyKernelMode hzero hn hout hrun
      exact ⟨fun f _ => rfl, fun w _ => rfl⟩
    obtain ⟨p₂, hnext⟩ := hexhausted h.toOrdinary
    obtain ⟨p', hp', -, hfree, htranslations⟩ := h.allocate_eq onlyKernelMode hzero hfs hn hnext
    rw [hp'] at hrun
    cases hrun
    exact ⟨fun f _ => hfree f, htranslations⟩
  · obtain ⟨p₂, hnext⟩ := hexhausted h
    obtain ⟨hcleared, p', hp', hocc⟩ := allocate_rolledBack s start tables onlyKernelMode h hzero hfs hn hnext
    rw [hp'] at hrun
    cases hrun
    obtain ⟨hshared, halone⟩ := (frames_restored_iff s start tables hfs hocc).1 hsame.free
    obtain ⟨hpresent, hunmapped⟩ :=
      (translations_restored_iff s start tables onlyKernelMode h hcleared).1 hsame.translations
    exact ⟨h, hpresent, hunmapped, hshared, halone⟩

/-! ### Two frames and one -/

/-- A machine with all frames occupied up to a word. -/
def lastWord (word : BitVec 32) (used : Nat) : PmmInfo where
  bitmap := fun w => if w = 0x100 then word else BitVec.allOnes 32
  bitmapWords := 0x101
  maxPages := 0x2020
  usedPages := used
  isInitialized := true

/-- A directory with one empty table. -/
def emptyTable (p : PmmInfo) : Space where
  mem := fun f i =>
    if f = 6 then if i = 1023 then System.identityEntry 6 else if i = 1 then System.identityEntry 0x1F00 else .zero
    else .zero
  pmm := p
  cr3 := 6
  currentPageDirectory := Space.kernelPd
  currHeapEnd := KERNEL_CODE_END

private theorem emptyTable_entry {p : PmmInfo} (hj : j < 1023) :
    (emptyTable p).mem (emptyTable p).cr3 j = if j = 1 then System.identityEntry 0x1F00 else .zero := by
  show (if j = 1023 then _ else _) = _
  rw [if_neg (by omega)]

private theorem emptyTable_tableOf {p : PmmInfo} (hq : q / 1024 = 1) :
    tableOf (emptyTable p).mem (emptyTable p).cr3 0 q = 0x1F00 := by
  have hentry := @emptyTable_entry 1 p (by decide)
  rw [if_pos rfl] at hentry
  rw [tableOf_of_present (by rw [hq, hentry]; rfl), hq, hentry]
  rfl

private theorem emptyTable_ordinary (p : PmmInfo) (hn : n ≤ 1024) : Ordinary (emptyTable p) 1024 n 0 := by
  refine ⟨⟨⟨rfl, rfl⟩, by omega, fun q hlo hhi => ?_⟩, fun i hi hpresent => ?_⟩
  · rw [emptyTable_tableOf (by omega)]
    show 0x1F00 ≠ 6
    decide
  · rw [emptyTable_entry hi] at hpresent ⊢
    split
    · show 0x1F00 ≠ 6
      decide
    · rename_i hne
      rw [if_neg hne] at hpresent
      cases hpresent

private theorem lastWord_frames {word : BitVec 32} {used : Nat} {fs : List Nat}
    (h : ((takeFrames fs.length (lastWord word used)).bind fun r => (pmmAllocatePage r.2).map fun r' => (r.1, r'.1)) =
      some (fs, 0)) : ∃ p, takeFrames fs.length (lastWord word used) = some (fs, p) ∧
        ∃ p', pmmAllocatePage p = some (0, p') := by
  obtain ⟨⟨fs', p⟩, hfs, h⟩ := Option.bind_eq_some_iff.1 h
  obtain ⟨⟨f, p'⟩, hnext, h⟩ := Option.map_eq_some_iff.1 h
  cases h
  exact ⟨p, hfs, p', hnext⟩

/-- Two frames of a word that was free can be given back. -/
private theorem restorable_twoFrames : Restorable (emptyTable (lastWord 0 0x201E)) 1024 0 [0x2000, 0x2001] := by
  have hgiven : ∀ (k f : Nat), [0x2000, 0x2001][k]? = some f →
      GivenBack (emptyTable (lastWord 0 0x201E)) 1024 0 [0x2000, 0x2001] f := by
    intro k f hf
    refine ⟨k, hf, fun k' hlt hk' hsame => ?_⟩
    have := (slot_eq_slot.1 hsame).2
    simp only [List.length_cons, List.length_nil] at hk'
    omega
  refine ⟨emptyTable_ordinary _ (by decide), ?_, ?_, ?_, ?_⟩
  · rintro j ⟨q, hlo, hhi, rfl⟩
    simp only [List.length_cons, List.length_nil] at hhi
    rw [show q / 1024 = 1 by omega]
    rfl
  · intro q hlo hhi
    simp only [List.length_cons, List.length_nil] at hhi
    unfold translate PAGES_PER_TABLE
    rw [show q / 1024 = 1 by omega]
    rfl
  · intro f hf
    rcases List.mem_pair.1 hf with rfl | rfl
    · exact ⟨0x2001, hgiven 1 _ rfl, by decide, by decide⟩
    · exact ⟨0x2000, hgiven 0 _ rfl, by decide, by decide⟩
  · rintro g ⟨k, hk, -⟩ j hj
    have hword : j / 32 = 0x100 := by
      rcases List.mem_pair.1 (List.mem_of_getElem? hk) with rfl | rfl <;> omega
    show ((lastWord 0 0x201E).bitmap (j / 32)).getLsbD (j % 32) = false
    rw [hword]
    exact BitVec.getLsbD_zero

theorem rollback_twoFrames : ∃ s', (emptyTable (lastWord 0 0x201E)).allocateMultiplePages 1024 3 false 0 =
    some (false, s') ∧ Unchanged (emptyTable (lastWord 0 0x201E)) s' := by
  obtain ⟨p, hfs, p₂, hnext⟩ := @lastWord_frames 0 0x201E [0x2000, 0x2001] (by decide +kernel)
  have hzero : occupied (emptyTable (lastWord 0 0x201E)).pmm 0 = true := by decide
  obtain ⟨-, p', hrun, -⟩ := @allocate_rolledBack (emptyTable (lastWord 0 0x201E)) 1024 0 false [0x2000, 0x2001]
    restorable_twoFrames.toOrdinary 3 p p₂ hzero hfs (by decide) hnext
  have hout : ∀ f p', pmmAllocatePage p = some (f, p') → f = 0 := by
    intro f p' hf
    rw [hnext] at hf
    cases hf
    rfl
  exact ⟨_, hrun, (rollback _ _ 1024 3 0 false [0x2000, 0x2001] p hzero hfs (by decide) hout hrun).1
    (.inr restorable_twoFrames)⟩

/-- The only free frame is taken and not given back: the deallocation keeps its bit. -/
theorem not_rollback : ∃ s', (emptyTable (lastWord 0xfffffffe 0x201F)).allocateMultiplePages 1024 2 false 0 =
    some (false, s') ∧ occupied (emptyTable (lastWord 0xfffffffe 0x201F)).pmm 0x2000 = false ∧
    ¬ Unchanged (emptyTable (lastWord 0xfffffffe 0x201F)) s' := by
  obtain ⟨p, hfs, p₂, hnext⟩ := @lastWord_frames 0xfffffffe 0x201F [0x2000] (by decide +kernel)
  have hordinary := @emptyTable_ordinary 1 (lastWord 0xfffffffe 0x201F) (by decide)
  obtain ⟨-, p', hrun, hocc⟩ := @allocate_rolledBack (emptyTable (lastWord 0xfffffffe 0x201F)) 1024 0 false [0x2000]
    hordinary 2 p p₂ (by decide) hfs (by decide) hnext
  obtain ⟨-, hall⟩ := Pmm.takeFrames_free hfs
  obtain ⟨hfree, -⟩ := hall 0x2000 (List.mem_singleton_self _)
  refine ⟨_, hrun, hfree, fun hsame => ?_⟩
  obtain ⟨hshared, -⟩ := (@frames_restored_iff (emptyTable (lastWord 0xfffffffe 0x201F)) 1024 0 [0x2000] p p' hfs
    hocc).1 hsame.free
  obtain ⟨g, ⟨k, hk, -⟩, -, hne⟩ := hshared 0x2000 (List.mem_singleton_self _)
  exact hne (List.mem_singleton.1 (List.mem_of_getElem? hk))

end DBolOS.Paging
