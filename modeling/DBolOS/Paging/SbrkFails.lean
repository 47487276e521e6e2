import DBolOS.Paging.Sbrk
import DBolOS.Paging.Started
import DBolOS.Lib.Run

/-!
# A growth that fails

A call of `_sbrk` that returns `-1` has to leave everything as it was, and memory has to be short then.  It is so in
every run of calls that are `Orderly` (`sbrk_safe`).  The other calls refuse a break that lies in no mapped page, count
a negative number of pages, or give back less than they took.
-/

namespace DBolOS.Paging

open Pmm (PmmInfo pmmAllocatePage takeFrames occupied sub32)

private theorem Unchanged.refl (s : Space) : Unchanged s s := ⟨fun _ _ => rfl, fun _ _ => rfl⟩

namespace Process

variable {p p' p₀ : Process} {c : SbrkCall} {cs : List SbrkCall} {increment : Int} {r : Nat}

/-! ### What a growth needs -/

/-- The pages that a growth reaches behind the last page of the break. -/
def neededPages (p : Process) (increment : Int) : Nat :=
  ((p.processBreak + increment + 0xFFF) / 0x1000 - (p.processBreak + 0xFFF) / 0x1000).toNat

/-- The page tables for the 4 MiB that it reaches behind those of the break. -/
def neededTables (p : Process) (increment : Int) : Nat :=
  ((p.processBreak + increment + 0x3FFFFF) / 0x400000 - (p.processBreak + 0x3FFFFF) / 0x400000).toNat

/-- The heap pages for its tables: `kmalloc_pages` takes one more than it is asked for. -/
def neededHeap (p : Process) (increment : Int) : Nat :=
  if p.neededTables increment = 0 then 0 else p.neededTables increment + 1

/-- There are frames and heap pages for the growth. -/
structure Enough (p : Process) (increment : Int) : Prop where
  frames : (takeFrames (p.neededHeap increment + p.neededPages increment) p.space.pmm).isSome = true
  heap : HeapPages p.space.currHeapEnd (p.neededHeap increment)

/-- A call that returned `r` changed nothing if it failed, and failed only for want of memory. -/
structure Safe (p : Process) (increment : Int) (r : Nat) (p' : Process) : Prop where
  unchanged : r = minusOne → p'.processBreak = p.processBreak ∧ Unchanged p.space p'.space
  succeeds : p.Enough increment → r ≠ minusOne

/-- The calls that are safe: the break lies in a mapped page, or memory is short anyway; the new break needs no page;
or it needs pages up to the boundary, for which there are frames or everything can be restored; or pages past the
boundary, of which none is to be counted negative, and for which there is all that is needed or no page for the heap
at all. -/
inductive Orderly (p : Process) (c : SbrkCall) : Prop
  | refused (hrefused : p.Refused) (hshort : ¬ p.Enough c.increment)
  | moved (hbreak : p.processBreak < 0xFFC00000) (hrefused : ¬ p.Refused)
      (hle : p.newBreak c.increment ≤ p.currentPageEnd)
  | within (hmoves : Moves p c.increment) (hrefused : ¬ p.Refused) (hlt : p.currentPageEnd < p.newBreak c.increment)
      (hle : p.newBreak c.increment ≤ p.pageTablesBoundary)
      (hfits : (takeFrames (p.growth c.increment) p.space.pmm).isSome = true ∨ p.Restores (p.growth c.increment))
  | across (hmoves : Moves p c.increment) (hrefused : ¬ p.Refused) (hlt : p.currentPageEnd < p.newBreak c.increment)
      (hacross : p.pageTablesBoundary < p.newBreak c.increment)
      (hcount : p.pastBoundary c.increment ≤ p.growth c.increment)
      (hheap : HeapPages p.space.currHeapEnd (p.pageTables c.increment + 1))
      (hframes : (takeFrames (p.pageTables c.increment + 1 + p.growth c.increment) p.space.pmm).isSome = true)
  | exhausted (hmoves : Moves p c.increment) (hrefused : ¬ p.Refused)
      (hlt : p.currentPageEnd < p.newBreak c.increment) (hacross : p.pageTablesBoundary < p.newBreak c.increment)
      (hexhausted : HeapExhausted p.space)

/-! ### One call -/

private theorem takeFrames_isSome_of_le {n m : Nat} {q : PmmInfo} (hle : n ≤ m) (h : (takeFrames m q).isSome = true) :
    (takeFrames n q).isSome = true := by
  obtain ⟨⟨fs, q'⟩, hfs⟩ := Option.isSome_iff_exists.1 h
  rw [show m = n + (m - n) by omega] at hfs
  obtain ⟨q₁, hfirst, -⟩ := Pmm.takeFrames_add hfs
  rw [hfirst]
  rfl

/-- The pages counted by the code are no more than those needed. -/
private theorem growth_le_needed (h : Moves p increment) (hlt : p.currentPageEnd < p.newBreak increment) :
    p.growth increment ≤ p.neededPages increment := by
  have hend := currentPageEnd_eq h.old
  have hnew := h.newBreak_eq
  unfold growth neededPages PAGE_SIZE
  omega

private theorem neededHeap_pos (h : Moves p increment) (hacross : p.pageTablesBoundary < p.newBreak increment) :
    2 ≤ p.neededHeap increment := by
  have hboundary := pageTablesBoundary_eq h.old
  have hnew := h.newBreak_eq
  have htables : 0 < p.neededTables increment := by
    unfold neededTables
    omega
  unfold neededHeap
  rw [if_neg (by omega)]
  omega

/-- Without a page for the heap there is not enough. -/
private theorem not_enough_of_exhausted (h : Moves p increment) (hacross : p.pageTablesBoundary < p.newBreak increment)
    (hexhausted : HeapExhausted p.space) : ¬ p.Enough increment := by
  intro henough
  have hpos := neededHeap_pos h hacross
  obtain hnone | hend := hexhausted
  · have hone := takeFrames_isSome_of_le (show 1 ≤ _ by omega) henough.frames
    rw [hnone] at hone
    cases hone
  · have := henough.heap p.space.currHeapEnd (Nat.le_refl _) (by omega)
    unfold HeapPage at this
    unfold KERNEL_HEAP_END at hend
    omega

theorem ne_minusOne (hbreak : p.processBreak < 0xFFC00000) : p.processBreak ≠ minusOne := by
  unfold minusOne
  omega

/-- An orderly call is safe, and the process runs on. -/
private theorem sbrk_step (hrun : Running p.space) (horderly : p.Orderly c) (hs : p.sbrk c = some (r, p')) :
    Safe p c.increment r p' ∧ Running p'.space := by
  cases horderly with
  | refused hrefused hshort =>
    rw [sbrk_refused hrefused] at hs
    cases hs
    exact ⟨⟨fun _ => ⟨rfl, Unchanged.refl _⟩, fun henough => absurd henough hshort⟩, hrun⟩
  | moved hbreak hrefused hle =>
    rw [sbrk_moved hrun.toSelfMapped hbreak hrefused hle] at hs
    cases hs
    exact ⟨⟨fun hr => absurd hr (ne_minusOne hbreak), fun _ => ne_minusOne hbreak⟩, hrun⟩
  | within hmoves hrefused hlt hle hfits =>
    cases within_cases hrun hmoves hrefused hlt hle hfits hs with
    | grown t fs q hfs hfit hr hbreak hspace =>
      subst hr
      refine ⟨⟨fun hr => absurd hr (ne_minusOne hmoves.old), fun _ => ne_minusOne hmoves.old⟩, ?_⟩
      rw [hspace]
      exact hrun.withRange hfit hfs
    | restored t fs q hrestorable hlength hfit hnone hcleared hr hbreak hspace hocc hsame =>
      subst hr
      refine ⟨⟨fun _ => ⟨hbreak, ?_, ?_⟩, fun henough => ?_⟩, ?_⟩
      · intro f _
        rw [hspace]
        exact hocc f
      · intro w hw
        have hcr3 : p'.space.cr3 = p.space.cr3 := by rw [hspace]
        rw [hcr3]
        exact hsame w hw
      · have hgrowth := growth_le_needed hmoves hlt
        have hsome := takeFrames_isSome_of_le (show p.growth c.increment ≤ _ by omega) henough.frames
        rw [hnone] at hsome
        cases hsome
      · rw [hspace]
        exact hrun.restored hrestorable hcleared hocc
  | across hmoves hrefused hlt hacross hcount hheap hframes =>
    obtain ⟨hr, hcases⟩ := sbrk_across hrun hmoves hrefused hlt hacross hcount hheap hframes hs
    subst hr
    refine ⟨⟨fun hr => absurd hr (ne_minusOne hmoves.old), fun _ => ne_minusOne hmoves.old⟩, ?_⟩
    cases hcases with
    | grown f₀ t hs fs gs q₁ q₂ q₃ s₁ s₂ hhs hfs hgs hs₁ hs₂ hrun₁ hfit₁ hfit₂ hr hbreak hspace =>
      have hpmm₁ : s₁.pmm = q₁ := by rw [hs₁, Space.withHeap_pmm]
      have hpmm₂ : s₂.pmm = q₂ := by rw [hs₂, Space.withRange_pmm]
      have hrun₂ : Running s₂ := by
        rw [hs₂]
        rw [← hpmm₁] at hfs
        exact hrun₁.withRange hfit₁ hfs
      rw [hspace]
      rw [← hpmm₂] at hgs
      exact hrun₂.withRange hfit₂ hgs
    | refused hr hp => exact absurd hr (ne_minusOne hmoves.old)
  | exhausted hmoves hrefused hlt hacross hexhausted =>
    obtain ⟨rfl, rfl⟩ := sbrk_exhausted hrun hmoves hrefused hlt hacross hexhausted hs
    exact ⟨⟨fun _ => ⟨rfl, Unchanged.refl _⟩,
      fun henough => absurd henough (not_enough_of_exhausted hmoves hacross hexhausted)⟩, hrun⟩

/-! ### All calls -/

/-- A run of orderly calls keeps the address space in order. -/
private theorem running_of_run (hstart : Running p₀.space) (hrun : Machine.Run step Orderly p₀ cs p) :
    Running p.space := by
  refine Machine.Run.inv (I := fun p => Running p.space) ?_ hrun hstart
  intro p c p' hp horderly hstep
  obtain ⟨⟨r, p''⟩, hs, rfl⟩ := Option.map_eq_some_iff.1 hstep
  exact (sbrk_step hp horderly hs).2

/-- In every run of orderly calls each of them is safe. -/
theorem sbrk_safe (hstart : Running p₀.space) (hrun : Machine.Run step Orderly p₀ cs p) (horderly : p.Orderly c)
    (hs : p.sbrk c = some (r, p')) : Safe p c.increment r p' :=
  (sbrk_step (running_of_run hstart hrun) horderly hs).1

/-! ### A break behind the pages of the image -/

/-- A break in a page of the image is in a mapped page. -/
theorem not_refused {s : Space} {creation : Space.Creation} {d : Supply creation s.pmm} (h : Clean s creation d)
    (hmode : creation.isKernelMode = false)
    (hbelow : creation.image.start + creation.image.pageCount ≤ Space.stackStart)
    (hslots : ∀ q q', creation.image.Loads q → creation.image.Loads q' → q % 1024 = q' % 1024 → q = q') {b : Nat}
    (hb : creation.image.Loads (b / 4096)) : ¬ Process.Refused ⟨Fresh.process s d, b⟩ := by
  have howning := h.owning hmode hbelow hslots
  obtain ⟨f, hf, -⟩ := howning.mapped _ hb
  have hpage := howning.below _ hb
  obtain ⟨hfree, hlt⟩ := h.translate_taken hpage hf.translation
  have hhigh := h.high hfree
  unfold Refused
  rw [Space.getPhysicalAddress_eq h.running.toSelfMapped (a := b) (by omega), hf.translation, Option.some.injEq,
    Option.elim_some]
  omega

/-- An image of one page, whose break is at the end of the last page that is mapped for it. -/
def highCreation : Space.Creation :=
  { image := { entry := 0x8048000, size := 0x1000, programBreak := 0x804B000 }
    isKernelMode := false
    growth := 0
    lastPage := fun _ => false }

/-- The break of such a process lies in no mapped page, and it cannot grow although there are frames. -/
theorem not_sbrk_safe : ¬ ∀ (s : Space) (c : Space.Creation) (d : Supply c s.pmm) (pd : Nat) (s₁ : Space)
    (cs : List SbrkCall) (p p' : Process) (call : SbrkCall) (r : Nat), Fresh s c d →
    s.createProcessFromElf c = some (some pd, s₁) →
    Machine.Run step (fun _ _ => True)
      ⟨{ s₁ with cr3 := d.directory, currentPageDirectory := pd }, c.image.programBreak⟩ cs p →
    p.sbrk call = some (r, p') → Safe p call.increment r p' := by
  intro hall
  obtain ⟨s, d, pd, s₁, hclean, -, hcreate, hprocess, hrest⟩ :=
    @exists_process highCreation (by unfold UserPages; decide) (by decide) (by decide)
  have hrun := hclean.running
  have hnone : translate (Fresh.process s d).mem (Fresh.process s d).cr3 0x804B = none := by
    apply hclean.translate_none (by decide)
    intro q hq
    have hstart : highCreation.image.start = 0x8048 := rfl
    have hcount : highCreation.image.pageCount = 3 := rfl
    have hstack : Space.stackStart = 0xBFEFF := rfl
    unfold Space.Image.Loads at hq
    omega
  have hrefused : Process.Refused ⟨Fresh.process s d, 0x804B000⟩ := by
    unfold Refused
    have haddress := Space.getPhysicalAddress_eq hrun.toSelfMapped (a := 0x804B000) (by decide)
    rw [show 0x804B000 / 4096 = 0x804B by decide, hnone] at haddress
    exact haddress
  have hsafe := hall s highCreation d pd s₁ [] _ _ ⟨1, false⟩ minusOne hclean.toFresh hcreate (Machine.Run.nil _)
    (by rw [hprocess]; exact sbrk_refused hrefused)
  have hpages : ∀ s, neededPages ⟨s, 0x804B000⟩ 1 = 1 ∧ neededHeap ⟨s, 0x804B000⟩ 1 = 0 := by
    intro s
    unfold neededHeap neededTables neededPages
    norm_num
  obtain ⟨hneeded, hheap⟩ := hpages { s₁ with cr3 := d.directory, currentPageDirectory := pd }
  refine hsafe.succeeds ⟨?_, ?_⟩ rfl
  · show (takeFrames (neededHeap ⟨_, 0x804B000⟩ 1 + neededPages ⟨_, 0x804B000⟩ 1) _).isSome = true
    rw [hneeded, hheap, hprocess]
    exact hrest 1 (by decide)
  · show HeapPages _ (neededHeap ⟨_, 0x804B000⟩ 1)
    rw [hheap]
    intro q hlo hhi
    omega

/-- A process that asks for its break and then for a page. -/
theorem sbrk_safe_smallProcess : ∃ p₀ p p' : Process, Running p₀.space ∧
    Machine.Run step Orderly p₀ [⟨0, false⟩] p ∧ p.sbrk ⟨0x1000, false⟩ = some (0x8049000, p') ∧
    Safe p 0x1000 0x8049000 p' := by
  obtain ⟨s, d, pd, s₁, hclean, -, -, -, hrest⟩ :=
    @exists_process smallCreation (by unfold UserPages; decide) (by decide) (by decide)
  have hrun := hclean.running
  obtain ⟨p, hp⟩ : ∃ p : Process, p = ⟨Fresh.process s d, 0x8049000⟩ := ⟨_, rfl⟩
  have hspace : p.space = Fresh.process s d := by rw [hp]
  have hbreak : p.processBreak = 0x8049000 := by rw [hp]
  have hrefused : ¬ p.Refused := by
    rw [hp]
    have hstart : smallCreation.image.start = 0x8048 := rfl
    have hcount : smallCreation.image.pageCount = 3 := rfl
    have hstack : Space.stackStart = 0xBFEFF := rfl
    refine not_refused hclean rfl (by omega) ?_ (.inl (by omega))
    intro q q' hq hq' hsame
    unfold Space.Image.Loads at hq hq'
    omega
  rw [← hspace] at hrun
  have hmoves : ∀ increment, 0 ≤ increment → increment ≤ 0x1000 → Moves p increment :=
    fun increment hlo hhi => ⟨by omega, by omega, by omega⟩
  have hend : p.currentPageEnd = 0x8049000 := by
    rw [currentPageEnd_eq (by omega), hbreak]
  have hboundary : p.pageTablesBoundary = 0x8400000 := by
    rw [pageTablesBoundary_eq (by omega), hbreak]
  have hnew := (hmoves 0x1000 (by decide) (by decide)).newBreak_eq
  have hnew₀ := (hmoves 0 (by decide) (by decide)).newBreak_eq
  have hgrowth : p.growth 0x1000 = 1 := by
    unfold growth PAGE_SIZE
    omega
  obtain ⟨⟨fs, q⟩, hfs⟩ := Option.isSome_iff_exists.1 (hrest 1 (by decide))
  rw [← hgrowth, show d.rest = p.space.pmm by rw [hspace]; rfl] at hfs
  have hsbrk₀ : p.sbrk ⟨0, false⟩ = some (p.processBreak, { p with processBreak := p.newBreak 0 }) :=
    sbrk_moved hrun.toSelfMapped (by omega) hrefused (by dsimp only; omega)
  obtain ⟨t, hsbrk⟩ := @sbrk_within_granted p ⟨0x1000, false⟩ fs q hrun (hmoves _ (by decide) (by decide)) hrefused
    (by dsimp only; omega) (by dsimp only; omega) hfs
  rw [hbreak] at hsbrk
  have hcalls : Machine.Run step Orderly p [⟨0, false⟩] p := by
    refine Machine.Run.cons (.moved (by omega) hrefused (by dsimp only; omega)) ?_ (Machine.Run.nil p)
    unfold step
    rw [hsbrk₀, show p.newBreak 0 = p.processBreak by omega]
    rfl
  refine ⟨p, p, _, hrun, hcalls, hsbrk, sbrk_safe hrun hcalls ?_ hsbrk⟩
  exact .within (hmoves _ (by decide) (by decide)) hrefused (by dsimp only; omega) (by dsimp only; omega)
    (.inl (by rw [hfs]; rfl))

end Process

end DBolOS.Paging
