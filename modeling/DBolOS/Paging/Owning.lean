import DBolOS.Paging.Running

/-!
# Pages of their own

A space is `Owning` pages when each of them is mapped for the user to a frame that is not free and that no other of
them and no table of the kernel has.  Growing the heap and a range that is unmapped again keep this, and a range that
was not mapped adds its pages (`Owning.withRange`).
-/

namespace DBolOS.Paging

open Pmm (PmmInfo takeFrames occupied)

variable {mem : Memory} {s s' : Space} {c start tables v w n q i g j f : Nat} {onlyKernelMode : Bool} {p : PmmInfo}
  {fs : List Nat} {P : Nat → Prop}

/-- The tables of the kernel that directories have: those of its image and those of the heap. -/
def KernelTable (g : Nat) : Prop := (0x1100 ≤ g ∧ g < 0x1106) ∨ (0x1406 ≤ g ∧ g < 0x1500)

structure Owning (s : Space) (P : Nat → Prop) : Prop extends Running s where
  image : ∀ j, 768 ≤ j → j < 774 → (s.mem s.cr3 j).present = true →
    0x1100 ≤ (s.mem s.cr3 j).address ∧ (s.mem s.cr3 j).address < 0x1106
  kernelUsed : ∀ g j, KernelTable g → j < 1024 → (s.mem g j).present = true →
    occupied s.pmm (s.mem g j).address = true
  heap : ∀ q, s.currHeapEnd ≤ q → HeapPage q → (s.mem (kernelTable (q / 1024)) (q % 1024)).present = false
  below : ∀ q, P q → q < 0xC0000
  mapped : ∀ q, P q → ∃ f, UserMapped s q f ∧ occupied s.pmm f = true
  own : ∀ q q' f, P q → P q' → translate s.mem s.cr3 q = some f → translate s.mem s.cr3 q' = some f → q = q'
  foreign : ∀ q f g j, P q → translate s.mem s.cr3 q = some f → KernelTable g → j < 1024 →
    (s.mem g j).present = true → (s.mem g j).address ≠ f

theorem Owning.congr {Q : Nat → Prop} (h : Owning s P) (hPQ : ∀ q, P q ↔ Q q) : Owning s Q := by
  have hsame : P = Q := funext fun q => propext (hPQ q)
  rw [← hsame]
  exact h

/-- What a space has to share with an owning one: new entries of the kernel's tables hold frames that were free. -/
private theorem Owning.transfer (h : Owning s P) (hrun : Running s') (hcr3 : s'.cr3 = s.cr3)
    (hkeeps : Keeps s.mem s'.mem s.cr3)
    (hocc : ∀ f, occupied s.pmm f = true → occupied s'.pmm f = true)
    (himage : ∀ j, 768 ≤ j → j < 774 → (s'.mem s.cr3 j).present = true →
      (s.mem s.cr3 j).present = true ∧ (s'.mem s.cr3 j).address = (s.mem s.cr3 j).address)
    (hkernel : ∀ g j, KernelTable g → (s'.mem g j).present = true →
      ((s.mem g j).present = true ∧ (s'.mem g j).address = (s.mem g j).address) ∨
        occupied s.pmm (s'.mem g j).address = false ∧ occupied s'.pmm (s'.mem g j).address = true)
    (hheap : ∀ q, s'.currHeapEnd ≤ q → HeapPage q → (s'.mem (kernelTable (q / 1024)) (q % 1024)).present = false) :
    Owning s' P := by
  have hself := h.toSelfMapped
  have hmapped : ∀ q, P q → ∃ f, UserMapped s q f ∧ UserMapped s' q f ∧ occupied s.pmm f = true := by
    intro q hq
    obtain ⟨f, hf, hused⟩ := h.mapped q hq
    have := h.below q hq
    exact ⟨f, hf, hkeeps.userMapped hself hcr3 (by omega) hf, hused⟩
  -- the translation of a page is the one it had
  have hsame : ∀ q f, P q → translate s'.mem s'.cr3 q = some f →
      translate s.mem s.cr3 q = some f ∧ occupied s.pmm f = true := by
    intro q f hq hf
    obtain ⟨f', hold, hnew, hused⟩ := hmapped q hq
    rw [hnew.translation, Option.some.injEq] at hf
    rw [← hf]
    exact ⟨hold.translation, hused⟩
  refine ⟨hrun, ?_, ?_, hheap, h.below, ?_, ?_, ?_⟩
  · intro j hlo hhi hpresent
    rw [hcr3] at hpresent ⊢
    obtain ⟨hold, haddress⟩ := himage j hlo hhi hpresent
    rw [haddress]
    exact h.image j hlo hhi hold
  · intro g j hg hj hpresent
    obtain ⟨hold, haddress⟩ | ⟨-, hused⟩ := hkernel g j hg hpresent
    · rw [haddress]
      exact hocc _ (h.kernelUsed g j hg hj hold)
    · exact hused
  · intro q hq
    obtain ⟨f, -, hnew, hused⟩ := hmapped q hq
    exact ⟨f, hnew, hocc f hused⟩
  · intro q q' f hq hq' hf hf'
    exact h.own q q' f hq hq' (hsame q f hq hf).1 (hsame q' f hq' hf').1
  · intro q f g j hq hf hg hj hpresent
    obtain ⟨hold, hused⟩ := hsame q f hq hf
    obtain ⟨hkept, haddress⟩ | ⟨hfree, -⟩ := hkernel g j hg hpresent
    · rw [haddress]
      exact h.foreign q f g j hq hold hg hj hkept
    · rintro rfl
      rw [hused] at hfree
      cases hfree

/-- An entry outside of the directory is as it was, or holds one of the frames. -/
theorem rangeMem_frames (h : Plain mem c tables v fs.length) (hg : g ≠ c) :
    rangeMem mem c tables onlyKernelMode v fs g j = mem g j ∨
      ∃ f ∈ fs, (rangeMem mem c tables onlyKernelMode v fs g j).address = bits20 f := by
  induction fs generalizing mem v with
  | nil => exact .inl rfl
  | cons f fs ih =>
    obtain hsame | ⟨f', hf', haddress⟩ := ih (h.next onlyKernelMode f)
    · by_cases hslot : slot mem c tables v = (g, j)
      · right
        refine ⟨f, List.mem_cons_self, ?_⟩
        obtain ⟨rfl, rfl⟩ := Prod.mk.inj hslot
        show (rangeMem (pageMem mem c tables onlyKernelMode v f) c tables onlyKernelMode (v + 1) fs _ _).address = _
        rw [hsame, pageMem_slot h.head]
        rfl
      · left
        exact hsame.trans (pageMem_of_ne hg hslot)
    · exact .inr ⟨f', List.mem_cons_of_mem f hf', haddress⟩

private theorem KernelTable.ne_directory (h : Running s) (hg : KernelTable g) : g ≠ s.cr3 := by
  have hapart := h.apart
  unfold KernelTable at hg
  omega

theorem kernelTable_kernelTable (hq : HeapPage q) : KernelTable (kernelTable (q / 1024)) := by
  obtain ⟨hlo, hhi⟩ := hq
  unfold KernelTable kernelTable
  omega

/-! ### The heap -/

private theorem slot_heapPage (h : Running s) (hq : HeapPage q) :
    slot s.mem s.cr3 0 q = (kernelTable (q / 1024), q % 1024) := by
  unfold slot tableOf
  rw [h.tableFor_address hq]

theorem Owning.withHeap (h : Owning s P) (hv : HeapPages s.currHeapEnd fs.length) (hn : 0 < fs.length)
    (hfs : takeFrames n s.pmm = some (fs, p)) :
    Owning (s.withHeap fs p) P ∧ Keeps s.mem (s.withHeap fs p).mem s.cr3 := by
  have hordinary : Ordinary s s.currHeapEnd fs.length 0 := h.toRunning.ordinary (hv.fitting hn)
  have hmem : (s.withHeap fs p).mem = rangeMem s.mem s.cr3 0 true s.currHeapEnd fs := growMem_eq _ _ _ _
  have hkeeps : Keeps s.mem (s.withHeap fs p).mem s.cr3 := by
    rw [hmem]
    refine keeps_rangeMem hordinary fun q hlo hhi i hi hpresent hsame => ?_
    have hslot := (Prod.mk.inj (slot_heapPage h.toRunning (hv q hlo hhi))).1
    rw [hslot]
    exact h.heap q hlo (hv q hlo hhi)
  refine ⟨h.transfer (h.toRunning.withHeap hv hn hfs) rfl hkeeps (fun f => occupied_of_takeFrames hfs) ?_ ?_ ?_, hkeeps⟩
  · intro j hlo hhi hpresent
    rw [hmem] at hpresent ⊢
    obtain hold | ⟨-, q, hqlo, hqhi, rfl, -⟩ := rangeMem_entry hordinary.toPlain hpresent
    · exact hold
    · have := (hv q hqlo hqhi).1
      omega
  · intro g j hg hpresent
    rw [hmem] at hpresent ⊢
    obtain hsame | ⟨f, hf, haddress⟩ := rangeMem_frames hordinary.toPlain (hg.ne_directory h.toRunning)
    · rw [hsame] at hpresent ⊢
      exact .inl ⟨hpresent, rfl⟩
    · obtain ⟨hfree, hlt⟩ := (Pmm.takeFrames_free hfs).2 f hf
      have hbits : bits20 f = f := Nat.mod_eq_of_lt hlt
      rw [haddress, hbits]
      exact .inr ⟨hfree, occupied_of_mem hfs hf⟩
  · intro q hlo hq
    have hlo : s.currHeapEnd + fs.length ≤ q := hlo
    have hne : kernelTable (q / 1024) ≠ s.cr3 := (kernelTable_kernelTable hq).ne_directory h.toRunning
    rw [hmem, rangeMem_of_ne hordinary.toPlain hne]
    · exact h.heap q (by omega) hq
    · intro q' hlo' hhi' hslot
      rw [slot_heapPage h.toRunning (hv q' hlo' hhi')] at hslot
      obtain ⟨htable, hindex⟩ := Prod.mk.inj hslot
      unfold kernelTable at htable
      omega

/-! ### A range of the user -/

/-- Behind a range of the user the tables of the kernel are as they were. -/
private theorem rangeMem_kernelTable (h : Running s) (hfit : Fitting s tables v fs.length)
    (huser : v + fs.length ≤ 0xC0000)
    (hg : 0x1100 ≤ g ∧ g < 0x1500) : rangeMem s.mem s.cr3 tables onlyKernelMode v fs g j = s.mem g j := by
  have hapart := h.apart
  refine rangeMem_of_ne (h.ordinary hfit).toPlain (by omega) fun q hlo hhi hslot => ?_
  have htable := h.tableOf_high hfit hlo hhi (by omega)
  rw [(Prod.mk.inj hslot).1] at htable
  have := htable.2.1
  omega

theorem KernelTable.bounds (hg : KernelTable g) : 0x1100 ≤ g ∧ g < 0x1500 := by
  unfold KernelTable at hg
  omega

/-- What a space has to share with an owning one when only the user's half changes. -/
private theorem Owning.transfer_user (h : Owning s P) (hrun : Running s') (hcr3 : s'.cr3 = s.cr3)
    (hkeeps : Keeps s.mem s'.mem s.cr3) (hocc : ∀ f, occupied s.pmm f = true → occupied s'.pmm f = true)
    (hend : s'.currHeapEnd = s.currHeapEnd)
    (himage : ∀ j, 768 ≤ j → j < 774 → (s'.mem s.cr3 j).present = true →
      (s.mem s.cr3 j).present = true ∧ (s'.mem s.cr3 j).address = (s.mem s.cr3 j).address)
    (hkernel : ∀ g j, 0x1100 ≤ g ∧ g < 0x1500 → s'.mem g j = s.mem g j) : Owning s' P := by
  refine h.transfer hrun hcr3 hkeeps hocc himage ?_ ?_
  · intro g j hg hpresent
    rw [hkernel g j hg.bounds] at hpresent ⊢
    exact .inl ⟨hpresent, rfl⟩
  · intro q hlo hq
    rw [hkernel _ _ (kernelTable_kernelTable hq).bounds]
    exact h.heap q (by omega) hq

/-- No entry of the kernel's half is new behind a range of the user. -/
private theorem rangeMem_image (h : Running s) (hfit : Fitting s tables v fs.length) (huser : v + fs.length ≤ 0xC0000)
    (hj : 768 ≤ j) (hpresent : (rangeMem s.mem s.cr3 tables onlyKernelMode v fs s.cr3 j).present = true) :
    (s.mem s.cr3 j).present = true ∧
      (rangeMem s.mem s.cr3 tables onlyKernelMode v fs s.cr3 j).address = (s.mem s.cr3 j).address := by
  obtain hold | ⟨-, q, hlo, hhi, rfl, -⟩ := rangeMem_entry (h.ordinary hfit).toPlain hpresent
  · exact hold
  · omega

/-- A page of the range is mapped for the user to its frame. -/
private theorem userMapped_withRange (h : Running s) (hfit : Fitting s tables v fs.length)
    (hfs : takeFrames n s.pmm = some (fs, p)) (hf : fs[i]? = some f)
    (hslots : ∀ k, i < k → k < fs.length → slot s.mem s.cr3 tables (v + k) ≠ slot s.mem s.cr3 tables (v + i)) :
    UserMapped (s.withRange tables v fs p) (v + i) f := by
  have hi : i < fs.length := (List.getElem?_eq_some_iff.1 hf).1
  have hlt : f < 0x100000 := ((Pmm.takeFrames_free hfs).2 f (List.mem_of_getElem? hf)).2
  have hordinary := h.ordinary hfit
  obtain ⟨hpresent, haddress, huser⟩ :=
    @rangeMem_slot s.mem s.cr3 tables v i f false fs hordinary.toPlain hf hslots
  have hthere := present_withRange (p := p) h hfit (Nat.le_add_right v i) (Nat.add_lt_add_left hi v)
  have htable : ((s.withRange tables v fs p).mem s.cr3 ((v + i) / 1024)).address = tableOf s.mem s.cr3 tables (v + i) := by
    have := (@rangeMem_directory s.mem s.cr3 tables v 0 false fs hordinary.toPlain).2.2 (v + i)
    rw [← this]
    exact (tableOf_of_present hthere).symm
  refine ⟨?_, ?_, ?_⟩
  · rw [Space.withRange_cr3, translate_eq_some, htable]
    refine ⟨hthere, hpresent, ?_⟩
    exact haddress.trans (Nat.mod_eq_of_lt hlt)
  · exact rangeMem_user hordinary.toPlain (.inr ⟨⟨v + i, Nat.le_add_right v i, Nat.add_lt_add_left hi v, rfl⟩, rfl⟩)
  · rw [Space.withRange_cr3, htable]
    exact huser

/-- A range that was not mapped, and whose pages have different slots, is added. -/
theorem Owning.withRange (h : Owning s P) (hfit : Fitting s tables v fs.length) (huser : v + fs.length ≤ 0xC0000)
    (hfs : takeFrames n s.pmm = some (fs, p))
    (hslots : ∀ i k, i < k → k < fs.length → slot s.mem s.cr3 tables (v + k) ≠ slot s.mem s.cr3 tables (v + i))
    (hunmapped : ∀ q, v ≤ q → q < v + fs.length → Unmapped s tables q) :
    Owning (s.withRange tables v fs p) (fun q => P q ∨ v ≤ q ∧ q < v + fs.length) ∧
      Keeps s.mem (s.withRange tables v fs p).mem s.cr3 := by
  have hkeeps : Keeps s.mem (s.withRange tables v fs p).mem s.cr3 := keeps_rangeMem (h.toRunning.ordinary hfit) hunmapped
  have hold : Owning (s.withRange tables v fs p) P :=
    h.transfer_user (h.toRunning.withRange hfit hfs) rfl hkeeps (fun f => occupied_of_takeFrames hfs) rfl
      (fun j hlo _ => rangeMem_image h.toRunning hfit huser hlo) fun g j hg =>
        rangeMem_kernelTable h.toRunning hfit huser hg
  obtain ⟨hnodup, hfree⟩ := Pmm.takeFrames_free hfs
  -- the frame of a page of the range
  have hnew : ∀ q, v ≤ q → q < v + fs.length → ∃ i f, q = v + i ∧ fs[i]? = some f ∧
      UserMapped (s.withRange tables v fs p) q f := by
    intro q hlo hhi
    obtain ⟨i, rfl⟩ := Nat.exists_eq_add_of_le hlo
    have hi : i < fs.length := by omega
    exact ⟨i, fs[i], rfl, List.getElem?_eq_getElem hi,
      userMapped_withRange h.toRunning hfit hfs (List.getElem?_eq_getElem hi) fun k => hslots i k⟩
  have hframe : ∀ q f, v ≤ q → q < v + fs.length →
      translate (s.withRange tables v fs p).mem (s.withRange tables v fs p).cr3 q = some f →
      occupied s.pmm f = false ∧ ∃ i, q = v + i ∧ fs[i]? = some f := by
    intro q f hlo hhi hf
    obtain ⟨i, f', rfl, hi, huser⟩ := hnew q hlo hhi
    rw [huser.translation, Option.some.injEq] at hf
    rw [← hf]
    exact ⟨(hfree f' (List.mem_of_getElem? hi)).1, i, rfl, hi⟩
  have hused : ∀ q f, P q →
      translate (s.withRange tables v fs p).mem (s.withRange tables v fs p).cr3 q = some f → occupied s.pmm f = true := by
    intro q f hq hf
    obtain ⟨f', hf', hused⟩ := h.mapped q hq
    have := hkeeps.translate h.toSelfMapped (by have := h.below q hq; omega) hf'.translation
    rw [Space.withRange_cr3, this, Option.some.injEq] at hf
    rwa [← hf]
  refine ⟨⟨hold.toRunning, hold.image, hold.kernelUsed, hold.heap, ?_, ?_, ?_, ?_⟩, hkeeps⟩
  · rintro q (hq | ⟨-, hhi⟩)
    · exact h.below q hq
    · omega
  · rintro q (hq | ⟨hlo, hhi⟩)
    · exact hold.mapped q hq
    · obtain ⟨i, f, -, hi, huser⟩ := hnew q hlo hhi
      exact ⟨f, huser, occupied_of_mem hfs (List.mem_of_getElem? hi)⟩
  · rintro q q' f (hq | ⟨hlo, hhi⟩) (hq' | ⟨hlo', hhi'⟩) hf hf'
    · exact hold.own q q' f hq hq' hf hf'
    · have := (hframe q' f hlo' hhi' hf').1
      rw [hused q f hq hf] at this
      cases this
    · have := (hframe q f hlo hhi hf).1
      rw [hused q' f hq' hf'] at this
      cases this
    · obtain ⟨-, i, rfl, hi⟩ := hframe q f hlo hhi hf
      obtain ⟨-, i', rfl, hi'⟩ := hframe q' f hlo' hhi' hf'
      rw [(List.getElem?_inj (by omega) hnodup).1 (hi.trans hi'.symm)]
  · rintro q f g j (hq | ⟨hlo, hhi⟩) hf hg hj hpresent
    · exact hold.foreign q f g j hq hf hg hj hpresent
    · have hsame : (s.withRange tables v fs p).mem g j = s.mem g j :=
        rangeMem_kernelTable h.toRunning hfit huser hg.bounds
      rw [hsame] at hpresent ⊢
      rintro rfl
      have := (hframe q _ hlo hhi hf).1
      rw [h.kernelUsed g j hg hj hpresent] at this
      cases this

/-- A range of the user is unmapped again. -/
theorem Owning.restored (h : Owning s P) (hrestorable : Restorable s start tables fs)
    (hcleared : Cleared (rangeMem s.mem s.cr3 tables onlyKernelMode start fs) s.cr3 tables start fs.length)
    (hfit : Fitting s tables start fs.length) (huser : start + fs.length ≤ 0xC0000)
    (hocc : ∀ f, occupied p f = occupied s.pmm f) :
    Owning { s with
      mem := clearMem (rangeMem s.mem s.cr3 tables onlyKernelMode start fs) s.cr3 tables start fs.length
      pmm := p } P := by
  refine h.transfer_user (h.toRunning.restored hrestorable hcleared hocc) rfl (hrestorable.keeps hcleared)
    (fun f hf => (hocc f).trans hf) rfl ?_ ?_
  · intro j hlo hhi hpresent
    dsimp only at hpresent ⊢
    rw [clearMem_directory hcleared] at hpresent ⊢
    exact rangeMem_image h.toRunning hfit huser hlo hpresent
  · intro g j hg
    dsimp only
    rw [clearMem_of_ne hcleared]
    · exact rangeMem_kernelTable h.toRunning hfit huser hg
    · intro q hlo hhi hslot
      have htable := h.toRunning.tableOf_high hfit hlo hhi (by omega)
      unfold slot at hslot
      rw [(@rangeMem_directory s.mem s.cr3 tables start 0 onlyKernelMode fs hrestorable.toPlain).2.2] at hslot
      rw [(Prod.mk.inj hslot).1] at htable
      have := htable.2.1
      omega

end DBolOS.Paging
