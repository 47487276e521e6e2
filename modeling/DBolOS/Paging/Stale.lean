import DBolOS.Paging.Boot

/-!
# Stale contents of a new directory

`create_process_from_elf` does not clear the directory it allocates, and all user pages that have no entry there get
the first of the tables.  What the frame of the directory held before decides which tables the user's half has.  With an
entry for that table in it, two pages are mapped to one frame, so that no creation isolates its process
(`not_isolated`).
-/

namespace DBolOS.Paging

open Pmm (PmmInfo takeFrames)

variable {mem : Memory} {s s' : Space} {c : Space.Creation} {p : PmmInfo}

/-! ### Isolation -/

/-- The frame that the directory on page `pd` maps page `v` of the user's half to. -/
def userMapping (s : Space) (pd v : Nat) : Option Nat :=
  if v < 0xC0000 then (translate s.mem kernelDirectory pd).bind fun f => translate s.mem f v else none

/-- Exactly the pages of the image and of the stack are mapped, each to its own frame. -/
structure OnlyItsOwn (image : Space.Image) (mapping : Nat → Option Nat) : Prop where
  pages : ∀ v, (mapping v).isSome = true ↔ image.Loads v
  frames : ∀ v w f, mapping v = some f → mapping w = some f → v = w

/-- The memories differ in the frames of the new directory and of the page tables only. -/
def SameOutside (d : Supply c p) (mem mem' : Memory) : Prop :=
  ∀ f, f ≠ d.directory → f ≠ d.table → f ∉ d.tables → mem' f = mem f

/-- A successful creation maps the pages of the process and no others, and whatever the frames of the directory and of
the tables held before, the pages are mapped in the same way. -/
def Isolated (s : Space) (c : Space.Creation) : Prop :=
  ∀ pd s₁, s.createProcessFromElf c = some (some pd, s₁) →
    OnlyItsOwn c.image (userMapping s₁ pd) ∧
      ∀ (d : Supply c s.pmm) mem' pd' s₂, SameOutside d s.mem mem' →
        Space.createProcessFromElf { s with mem := mem' } c = some (some pd', s₂) →
          userMapping s₂ pd' = userMapping s₁ pd

namespace Space

/-! ### Loadable images -/

private theorem elfLoadProcess_programBreak {image : Image} {isKernelMode lastPage : Bool}
    (h : s.elfLoadProcess image isKernelMode lastPage = some (true, s')) : image.programBreak ≠ 0 := by
  obtain ⟨⟨tables, s₁⟩, -, h⟩ := Option.bind_eq_some_iff.1 h
  obtain ⟨phys, -, h⟩ := Option.bind_eq_some_iff.1 h
  obtain ⟨⟨allocated, s₂⟩, -, h⟩ := Option.bind_eq_some_iff.1 h
  cases allocated with
  | false =>
    simp only [Bool.not_false, if_true] at h
    split at h
    · obtain ⟨s₃, -, h⟩ := Option.bind_eq_some_iff.1 h
      cases h
    · cases h
  | true =>
    obtain ⟨⟨allocated, s₃⟩, -, h⟩ := Option.bind_eq_some_iff.1 h
    cases allocated with
    | false =>
      obtain ⟨s₄, -, h⟩ := Option.bind_eq_some_iff.1 h
      dsimp only at h
      split at h
      · obtain ⟨s₅, -, h⟩ := Option.bind_eq_some_iff.1 h
        cases h
      · cases h
    | true =>
      simp only [Bool.not_true, Bool.false_eq_true, if_false, Option.some.injEq, Prod.mk.injEq,
        decide_eq_true_eq] at h
      exact h.1

/-- Only an image with a section to load makes a process. -/
private theorem createProcessFromElf_programBreak {pd : Nat} (h : s.createProcessFromElf c = some (some pd, s')) :
    c.image.programBreak ≠ 0 := by
  obtain ⟨s₁, -, h⟩ := Option.bind_eq_some_iff.1 h
  obtain ⟨⟨allocated, s₂⟩, -, h⟩ := Option.bind_eq_some_iff.1 h
  cases allocated with
  | false => cases h
  | true =>
    obtain ⟨⟨kernelStack, s₃⟩, -, h⟩ := Option.bind_eq_some_iff.1 h
    obtain ⟨⟨pageDirectory, s₄⟩, -, h⟩ := Option.bind_eq_some_iff.1 h
    cases pageDirectory with
    | none =>
      obtain ⟨s₅, -, h⟩ := Option.bind_eq_some_iff.1 h
      cases h
    | some pd =>
      obtain ⟨s₅, -, h⟩ := Option.bind_eq_some_iff.1 h
      obtain ⟨s₆, -, h⟩ := Option.bind_eq_some_iff.1 h
      obtain ⟨⟨loaded, s₇⟩, hload, h⟩ := Option.bind_eq_some_iff.1 h
      cases loaded with
      | true => exact elfLoadProcess_programBreak hload
      | false =>
        obtain ⟨s₈, -, h⟩ := Option.bind_eq_some_iff.1 h
        obtain ⟨s₉, -, h⟩ := Option.bind_eq_some_iff.1 h
        obtain ⟨s₁₀, -, h⟩ := Option.bind_eq_some_iff.1 h
        cases h

end Space

/-! ### Another content of the frame -/

/-- The memory with an entry for the table, and nothing else, in the frame of the new directory. -/
def Supply.withTable (d : Supply c p) (mem : Memory) : Memory := fun f j =>
  if f = d.directory then
    if j = 0 then { PageEntry.zero with present := true, address := d.table } else .zero
  else mem f j

private theorem Supply.withTable_of_ne (d : Supply c p) {f : Nat} (hf : f ≠ d.directory) :
    d.withTable mem f = mem f := by
  funext j
  exact if_neg hf

private theorem Supply.withTable_pointsTo (d : Supply c p) (j : Nat) :
    PointsTo (d.withTable mem) d.directory d.table j := by
  unfold PointsTo withTable
  rw [if_pos rfl]
  split
  · intro _
    rfl
  · intro hpresent
    cases hpresent

private theorem Sane.withTable (h : Sane s) (d : Supply c s.pmm) : Sane { s with mem := d.withTable s.mem } := by
  have hfree := d.free_directory.1
  have hhigh := h.high hfree
  have hcr3 : s.cr3 ≠ d.directory := by
    intro heq
    rw [← heq, h.used] at hfree
    cases hfree
  have hkernel : d.withTable s.mem kernelDirectory = s.mem kernelDirectory := by
    apply d.withTable_of_ne
    unfold kernelDirectory
    omega
  have hwindow : d.withTable s.mem 0x1100 = s.mem 0x1100 := d.withTable_of_ne (by omega)
  have hloaded : d.withTable s.mem s.cr3 = s.mem s.cr3 := d.withTable_of_ne hcr3
  have hdirectory : Directory (d.withTable s.mem) kernelDirectory := by
    refine ⟨h.kernel.toSelfMapped.congr (by rw [hkernel]), ?_, h.kernel.apart⟩
    rw [hkernel]
    exact h.kernel.tables
  exact ⟨hdirectory, h.window.congr (congrFun hkernel 768) hwindow, h.loaded.congr (congrFun hloaded 1023),
    h.reach.congr (congrFun hloaded 768) hwindow, h.used, h.prev, h.low⟩

/-! ### What the new process sees -/

namespace Ready

variable {d : Supply c s.pmm}

private theorem userMapping_eq (h : Ready s c d) (hmem : s'.mem = d.loadMem s.mem s.currHeapEnd) {v : Nat}
    (hv : v < 0xC0000) :
    userMapping s' (s.currHeapEnd + (c.growth + 3)) v =
      translate (d.loadMem s.mem s.currHeapEnd) d.directory v := by
  unfold userMapping
  rw [if_pos hv, hmem, h.loadMem_page]
  rfl

theorem loadMem_pointsTo (h : Ready s c d) {j : Nat} (hj : j < 768)
    (hpoints : PointsTo s.mem d.directory d.table j) :
    PointsTo (d.loadMem s.mem s.currHeapEnd) d.directory d.table j := by
  apply userMem_pointsTo h.loadable_stack
  apply userMem_pointsTo h.loadable_image
  unfold PointsTo
  rw [h.tableMem_user hj]
  exact hpoints

/-- Whatever entry has the table, the last page behind it is mapped to the last frame of the stack. -/
private theorem translate_loadMem_last (h : Ready s c d) {j f : Nat} {init : List Nat} (hj : j < 768)
    (hstack : d.stack = init ++ [f]) (hpoints : PointsTo s.mem d.directory d.table j)
    (hpresent : (s.mem d.directory j).present = true ∨ j = 767) :
    translate (d.loadMem s.mem s.currHeapEnd) d.directory (1024 * j + 1022) = some (bits20 f) := by
  have hlength : init.length = 255 := by
    have := d.stack_length
    rw [hstack, List.length_append, List.length_singleton] at this
    omega
  have hpresent' : (d.loadMem s.mem s.currHeapEnd d.directory j).present = true := by
    apply userMem_present h.loadable_stack
    obtain hpresent | rfl := hpresent
    · left
      apply userMem_present h.loadable_image
      left
      rw [h.tableMem_user hj]
      exact hpresent
    · right
      refine ⟨Space.stackStart, Nat.le_refl _, ?_, rfl⟩
      rw [d.stack_length]
      omega
  have hlast : d.loadMem s.mem s.currHeapEnd d.table 1022 =
      Space.mapped f c.isKernelMode (userMem (d.imageMem s.mem s.currHeapEnd) d.directory d.table c.isKernelMode
        Space.stackStart init d.table 1022) := by
    have hloadable := h.loadable_stack
    rw [hstack, List.length_append, List.length_singleton] at hloadable
    have hindex : (Space.stackStart + init.length) % 1024 = 1022 := by
      rw [hlength]
      rfl
    have := @userMem_last _ _ _ _ c.isKernelMode _ hloadable f
    rw [hindex, ← hstack] at this
    exact this
  have hentry : (1024 * j + 1022) / 1024 = j := by omega
  have hindex : (1024 * j + 1022) % 1024 = 1022 := by omega
  rw [translate_eq_some, hentry, hindex, h.loadMem_pointsTo hj hpoints hpresent', hlast]
  exact ⟨hpresent', rfl, rfl⟩

end Ready

/-! ### No creation isolates its process -/

/-- With the table already in the frame of the directory, the creation succeeds, and the pages `0x3FE` and `0xBFFFE` are
mapped to one frame. -/
private theorem exists_withTable (h : Sane s) (d : Supply c s.pmm)
    (hheap : HeapPages s.currHeapEnd (c.growth + 5 + (c.image.tableCount + 1)))
    (huser : UserPages c.image.start c.image.pageCount) (hbreak : c.image.programBreak ≠ 0) :
    ∃ pd s₂ f, Space.createProcessFromElf { s with mem := d.withTable s.mem } c = some (some pd, s₂) ∧
      userMapping s₂ pd 0x3FE = some f ∧ userMapping s₂ pd 0xBFFFE = some f := by
  have hready : Ready { s with mem := d.withTable s.mem } c d :=
    ⟨h.withTable d, hheap, huser, fun q _ => d.withTable_pointsTo (q / 1024)⟩
  have hne : d.stack ≠ [] := by
    intro hnil
    have := d.stack_length
    rw [hnil] at this
    cases this
  have hstack : d.stack = d.stack.dropLast ++ [d.stack.getLast hne] := (List.dropLast_append_getLast hne).symm
  refine ⟨_, _, bits20 (d.stack.getLast hne), hready.createProcessFromElf_eq hbreak, ?_, ?_⟩
  · refine (hready.userMapping_eq rfl (by decide)).trans ?_
    apply hready.translate_loadMem_last (j := 0) (by omega) hstack (d.withTable_pointsTo 0)
    left
    show (d.withTable s.mem d.directory 0).present = true
    unfold Supply.withTable
    rw [if_pos rfl, if_pos rfl]
  · refine (hready.userMapping_eq rfl (by decide)).trans ?_
    exact hready.translate_loadMem_last (j := 767) (by omega) hstack (d.withTable_pointsTo 767) (Or.inr rfl)

private theorem isolated_false {pd : Nat} (h : Sane s) (d : Supply c s.pmm)
    (hheap : HeapPages s.currHeapEnd (c.growth + 5 + (c.image.tableCount + 1)))
    (hcreate : s.createProcessFromElf c = some (some pd, s')) (hisolated : Isolated s c) : False := by
  obtain ⟨hown, hsame⟩ := hisolated pd s' hcreate
  by_cases huser : UserPages c.image.start c.image.pageCount
  · have hbreak := Space.createProcessFromElf_programBreak hcreate
    obtain ⟨pd', s₂, f, hcreate', hlow, hhigh⟩ := exists_withTable h d hheap huser hbreak
    have hmapping := hsame d _ pd' s₂ (fun g hg _ _ => d.withTable_of_ne hg) hcreate'
    rw [hmapping] at hlow hhigh
    exact absurd (hown.frames _ _ f hlow hhigh) (by decide)
  · -- the last page of the image lies in the kernel's half
    unfold UserPages at huser
    have hloads : c.image.Loads (c.image.start + c.image.pageCount - 1) := by
      left
      have : 0 < c.image.pageCount := Nat.succ_pos _
      omega
    have hsome := (hown.pages _).2 hloads
    unfold userMapping at hsome
    rw [if_neg (by omega)] at hsome
    cases hsome

/-- In no state does a creation that finds room and frames isolate its process. -/
theorem not_isolated {pd : Nat} (h : Sane s) (d : Supply c s.pmm)
    (hheap : HeapPages s.currHeapEnd (c.growth + 5 + (c.image.tableCount + 1)))
    (hcreate : s.createProcessFromElf c = some (some pd, s')) : ¬ Isolated s c :=
  isolated_false h d hheap hcreate

theorem not_isolated_bigMachine : ∃ t pd s', System.boot Pmm.bigMachine (fun _ _ => .zero) = some t ∧
    t.space.createProcessFromElf smallCreation = some (some pd, s') ∧ ¬ Isolated t.space smallCreation := by
  obtain ⟨t, hboot, d, hready, -⟩ := exists_ready_bigMachine
  have hcreate := hready.createProcessFromElf_eq (show 0x8049000 ≠ 0 by decide)
  exact ⟨t, _, _, hboot, hcreate, not_isolated hready.toSane d hready.heap hcreate⟩

theorem exists_not_isolated : ¬ ∀ mbi stale t c, System.boot mbi stale = some t → Isolated t.space c := by
  intro hall
  obtain ⟨t, hboot, d, hready, -⟩ := exists_ready_bigMachine
  have hcreate := hready.createProcessFromElf_eq (show 0x8049000 ≠ 0 by decide)
  exact isolated_false hready.toSane d hready.heap hcreate (hall _ _ t smallCreation hboot)

end DBolOS.Paging
