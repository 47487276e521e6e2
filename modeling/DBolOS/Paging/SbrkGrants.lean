import DBolOS.Paging.SbrkFails

/-!
# A growth that is granted

The pages of a process are those of its image, those up to its break and those of its stack.  A call of `_sbrk` that
grants a growth has to map the new ones for the user, each to a frame of its own, and to leave what was mapped.  It does
in every run of calls that are `Backing` (`sbrk_grants`): the others map pages a second time, or count the last page of
the growth out.
-/

namespace DBolOS.Paging

open Pmm (PmmInfo takeFrames occupied)

variable {s s' : Space} {P Q : Nat → Prop} {image : Space.Image} {limit q v w n : Nat} {fs : List Nat} {p : PmmInfo}

/-! ### Pages of their own -/

/-- The pages of a process whose break is `limit`. -/
def ProcessPage (image : Space.Image) (limit w : Nat) : Prop :=
  image.start ≤ w ∧ (w < image.start + image.pageCount ∨ w * PAGE_SIZE < limit) ∨
    Space.stackStart ≤ w ∧ w < Space.stackStart + DEFAULT_STACK_PAGE_AMOUNT

/-- The user has the page, in a frame that is not free and that no other page of the process and no table of the kernel
has. -/
def Backed (image : Space.Image) (limit : Nat) (s : Space) (q : Nat) : Prop :=
  ∃ f, UserMapped s q f ∧ occupied s.pmm f = true ∧
    (∀ w, ProcessPage image limit w → w ≠ q → translate s.mem s.cr3 w ≠ some f) ∧
    ∀ g j, KernelTable g → j < 1024 → (s.mem g j).present = true → (s.mem g j).address ≠ f

private theorem Owning.mono (h : Owning s P) (hQP : ∀ w, Q w → P w) : Owning s Q :=
  ⟨h.toRunning, h.image, h.kernelUsed, h.heap, fun q hq => h.below q (hQP q hq), fun q hq => h.mapped q (hQP q hq),
    fun q q' f hq hq' => h.own q q' f (hQP q hq) (hQP q' hq'), fun q f g j hq => h.foreign q f g j (hQP q hq)⟩

private theorem Owning.backed (h : Owning s (ProcessPage image limit)) (hq : ProcessPage image limit q) :
    Backed image limit s q := by
  obtain ⟨f, hf, hused⟩ := h.mapped q hq
  refine ⟨f, hf, hused, fun w hw hne hsame => hne ?_, fun g j => h.foreign q f g j hq hf.translation⟩
  exact h.own w q f hw hq hsame hf.translation

private theorem Owning.insert (h : Owning s P) (hP : ∀ w, P w → ProcessPage image limit w) (hq : q < 0xC0000)
    (hbacked : Backed image limit s q) : Owning s (fun w => P w ∨ w = q) := by
  obtain ⟨f, hf, hused, hown, hforeign⟩ := hbacked
  have hframe : ∀ f', translate s.mem s.cr3 q = some f' → f' = f := by
    intro f' hf'
    rw [hf.translation, Option.some.injEq] at hf'
    exact hf'.symm
  have happart : ∀ w f', P w → translate s.mem s.cr3 w = some f' → translate s.mem s.cr3 q = some f' → w = q := by
    intro w f' hw hf' hq'
    rw [hframe f' hq'] at hf'
    by_contra hne
    exact hown w (hP w hw) hne hf'
  refine ⟨h.toRunning, h.image, h.kernelUsed, h.heap, ?_, ?_, ?_, ?_⟩
  · rintro w (hw | rfl)
    · exact h.below w hw
    · exact hq
  · rintro w (hw | rfl)
    · exact h.mapped w hw
    · exact ⟨f, hf, hused⟩
  · rintro w w' f' (hw | rfl) (hw' | rfl) hf₁ hf₂
    · exact h.own w w' f' hw hw' hf₁ hf₂
    · exact happart w f' hw hf₁ hf₂
    · exact (happart w' f' hw' hf₂ hf₁).symm
    · rfl
  · rintro w f' g j (hw | rfl) hf' hg hj hpresent
    · exact h.foreign w f' g j hw hf' hg hj hpresent
    · rw [hframe f' hf']
      exact hforeign g j hg hj hpresent

/-! ### Behind a growth of the heap -/

private theorem withHeap_directory (h : Running s) (hv : HeapPages s.currHeapEnd fs.length) {j : Nat} (hj : j < 768) :
    (s.withHeap fs p).mem s.cr3 j = s.mem s.cr3 j := by
  apply growMem_of_ne_entry h.toDirectory hv
  intro q hlo hhi heq
  have := (hv q hlo hhi).1
  omega

private theorem translate_withHeap (h : Running s) (hv : HeapPages s.currHeapEnd fs.length) (hq : q < 0xC0000) :
    translate (s.withHeap fs p).mem s.cr3 q = translate s.mem s.cr3 q := by
  unfold translate PAGES_PER_TABLE
  dsimp only
  rw [withHeap_directory h hv (by omega)]
  by_cases hpresent : (s.mem s.cr3 (q / 1024)).present = true
  · obtain ⟨-, hhigh, hne⟩ := h.user _ (by omega) hpresent
    have htable : (s.withHeap fs p).mem (s.mem s.cr3 (q / 1024)).address = s.mem (s.mem s.cr3 (q / 1024)).address :=
      growMem_of_ne h.toDirectory hv hne (.inr (by omega))
    rw [htable]
  · rw [if_neg hpresent, if_neg hpresent]

/-- The slot of an unmapped page is free, in the table it has or in a new one that was free. -/
private theorem unmapped_new {t : Nat} (ht : t < 0x100000) (hfree : ∀ i, i < 1023 →
    (s.mem s.cr3 i).present = true → (s.mem s.cr3 i).address ≠ t) (hq : q < 0xC0000)
    (hnone : translate s.mem s.cr3 q = none) : Unmapped s (t * PAGE_SIZE) q := by
  by_cases hpresent : (s.mem s.cr3 (q / 1024)).present = true
  · exact unmapped_of_none hpresent hnone
  · intro i hi hentry hsame
    rw [tableOf_user hq hpresent, Nat.mul_div_cancel t (by decide : 0 < PAGE_SIZE),
      show bits20 t = t from Nat.mod_eq_of_lt ht] at hsame
    exact absurd hsame (hfree i hi hentry)

/-- Mapping a range leaves an unmapped page whose table is there unmapped, if the range has other slots. -/
private theorem translate_withRange_none {tables : Nat} (h : Running s) (hfit : Fitting s tables v fs.length)
    (hpresent : (s.mem s.cr3 (q / 1024)).present = true) (hq : q / 1024 < 1023)
    (hslot : ∀ w, v ≤ w → w < v + fs.length → w % 1024 ≠ q % 1024) (hnone : translate s.mem s.cr3 q = none) :
    translate (s.withRange tables v fs p).mem s.cr3 q = none := by
  have hplain := (h.ordinary hfit).toPlain
  have hne := h.others hq hpresent
  have hdir := present_withRange_of_present (p := p) h hfit hpresent
  have haddress : ((s.withRange tables v fs p).mem s.cr3 (q / 1024)).address = (s.mem s.cr3 (q / 1024)).address :=
    (@rangeMem_directory s.mem s.cr3 tables v (q / 1024) false fs hplain).2.1 hpresent
  have htable : (s.withRange tables v fs p).mem (s.mem s.cr3 (q / 1024)).address (q % 1024) =
      s.mem (s.mem s.cr3 (q / 1024)).address (q % 1024) := by
    apply rangeMem_of_ne hplain hne
    intro w hlo hhi hsame
    exact hslot w hlo hhi (Prod.mk.inj hsame).2
  unfold translate PAGES_PER_TABLE at hnone ⊢
  dsimp only at hnone ⊢
  rw [if_pos hpresent] at hnone
  rw [if_pos hdir, haddress, htable]
  exact hnone

namespace Process

variable {p p' p₀ : Process} {c : SbrkCall} {cs : List SbrkCall} {r : Nat}

/-! ### A growth -/

/-- A growth by `increment` that was granted by the value `r`. -/
structure Granted (image : Space.Image) (p : Process) (increment : Int) (r : Nat) (p' : Process) : Prop where
  returned : r = p.processBreak
  moved : (p'.processBreak : Int) = p.processBreak + increment
  backed : ∀ q, p.processBreak < (q + 1) * PAGE_SIZE → q * PAGE_SIZE < p'.processBreak →
    Backed image p'.processBreak p'.space q
  kept : ∀ w < 0x100000, ∀ f, translate p.space.mem p.space.cr3 w = some f →
    translate p'.space.mem p'.space.cr3 w = some f

/-- A growth by `increment` that does not reach the stack. -/
structure Grows (image : Space.Image) (p : Process) (increment : Int) : Prop where
  pos : 0 < increment
  stack : p.processBreak + increment ≤ Space.stackStart * PAGE_SIZE
  above : image.start ≤ p.processBreak / PAGE_SIZE
  mapped : ¬ p.Refused

/-- The page is not mapped. -/
def Absent (p : Process) (q : Nat) : Prop := translate p.space.mem p.space.cr3 q = none

/-- The heap grows by a page for the new table, and there are frames for it and for the pages counted. -/
structure Supplied (p : Process) (increment : Int) : Prop where
  heap : HeapPages p.space.currHeapEnd (p.pageTables increment + 1)
  frames : (takeFrames (p.pageTables increment + 1 + p.growth increment) p.space.pmm).isSome = true

/-- The calls that back what they grant.  A growth needs no page; or less than one, and the page it reaches is there; or
whole pages, none of which is there.  Past the boundary it needs no more than a page there, which is not there, and
that page is a whole one, or the page before it is the only one of the growth and is there. -/
inductive Backing (image : Space.Image) (p : Process) (c : SbrkCall) : Prop
  | refused (hrefused : p.Refused)
  | shrinks (hmapped : ¬ p.Refused) (hneg : c.increment ≤ 0) (hnonneg : 0 ≤ p.processBreak + c.increment)
  | moved (hgrows : Grows image p c.increment) (hle : p.newBreak c.increment ≤ p.currentPageEnd)
  | part (hgrows : Grows image p c.increment) (hlt : p.currentPageEnd < p.newBreak c.increment)
      (hle : p.newBreak c.increment ≤ p.pageTablesBoundary) (hcount : p.growth c.increment = 0)
      (hbacked : Backed image (p.newBreak c.increment) p.space (p.currentPageEnd / PAGE_SIZE))
  | whole (hgrows : Grows image p c.increment) (hlt : p.currentPageEnd < p.newBreak c.increment)
      (hle : p.newBreak c.increment ≤ p.pageTablesBoundary) (haligned : p.newBreak c.increment % PAGE_SIZE = 0)
      (habsent : ∀ q, p.currentPageEnd / PAGE_SIZE ≤ q → q < p.newBreak c.increment / PAGE_SIZE → p.Absent q)
      (hfits : (takeFrames (p.growth c.increment) p.space.pmm).isSome = true ∨ p.Restores (p.growth c.increment))
  | exhausted (hmapped : ¬ p.Refused) (hmoves : Moves p c.increment)
      (hlt : p.currentPageEnd < p.newBreak c.increment) (hacross : p.pageTablesBoundary < p.newBreak c.increment)
      (hexhausted : HeapExhausted p.space)
  | acrossWhole (hgrows : Grows image p c.increment)
      (hacross : p.newBreak c.increment = p.pageTablesBoundary + PAGE_SIZE) (hsupplied : p.Supplied c.increment)
      (habsent : ∀ q, p.currentPageEnd / PAGE_SIZE ≤ q → q ≤ p.pageTablesBoundary / PAGE_SIZE → p.Absent q)
  | acrossPart (hgrows : Grows image p c.increment) (hacross : p.pageTablesBoundary < p.newBreak c.increment)
      (hlt : p.newBreak c.increment < p.pageTablesBoundary + PAGE_SIZE)
      (honly : p.currentPageEnd + PAGE_SIZE = p.pageTablesBoundary) (hsupplied : p.Supplied c.increment)
      (hbacked : Backed image (p.newBreak c.increment) p.space (p.currentPageEnd / PAGE_SIZE))
      (habsent : p.Absent (p.pageTablesBoundary / PAGE_SIZE))

/-- The process owns its pages, and its break has not reached the stack. -/
structure Kept (image : Space.Image) (p : Process) : Prop where
  owning : Owning p.space (ProcessPage image p.processBreak)
  stack : p.processBreak ≤ Space.stackStart * PAGE_SIZE

/-- What a call leaves, and that it was right if it granted a growth. -/
structure Served (image : Space.Image) (p : Process) (increment : Int) (r : Nat) (p' : Process) : Prop where
  kept : Kept image p'
  granted : 0 < increment → p.processBreak + increment ≤ Space.stackStart * PAGE_SIZE → r ≠ minusOne →
    Granted image p increment r p'

variable {increment : Int}

private theorem Grows.moves (h : Grows image p increment) : Moves p increment := by
  have hpos := h.pos
  have hstack := h.stack
  have htop : Space.stackStart * PAGE_SIZE = 0xBFEFF000 := rfl
  exact ⟨by omega, by omega, by omega⟩

/-- A page that the break passes by is one of the process. -/
private theorem Grows.processPage (h : Grows image p increment) (hlo : p.processBreak < (q + 1) * PAGE_SIZE)
    (hhi : q * PAGE_SIZE < limit) : ProcessPage image limit q := by
  have habove := h.above
  unfold PAGE_SIZE at habove hlo
  exact .inl ⟨by omega, .inr hhi⟩

/-- A growth is granted once the new pages are owned. -/
private theorem Grows.granted (h : Grows image p increment) (hr : r = p.processBreak)
    (hbreak : p'.processBreak = p.newBreak increment) (hcr3 : p'.space.cr3 = p.space.cr3)
    (howning : Owning p'.space (ProcessPage image (p.newBreak increment)))
    (hself : SelfMapped p.space.mem p.space.cr3) (hkeeps : Keeps p.space.mem p'.space.mem p.space.cr3) :
    Kept image p' ∧ Granted image p increment r p' := by
  have hnew := h.moves.newBreak_eq
  have hstack := h.stack
  refine ⟨⟨by rw [hbreak]; exact howning, by omega⟩, hr, by omega, fun q hlo hhi => ?_, fun w hw f hf => ?_⟩
  · rw [hbreak] at hhi ⊢
    exact howning.backed (h.processPage hlo hhi)
  · rw [hcr3]
    exact hkeeps.translate hself hw hf

/-- The pages of a process with a larger break. -/
private theorem processPage_mono {limit' : Nat} (hle : limit ≤ limit') (h : ProcessPage image limit w) :
    ProcessPage image limit' w := by
  unfold ProcessPage at h ⊢
  omega

private theorem slot_ne {tables i k : Nat} {mem : Memory} {x : Nat} (hik : i < k) (hk : k < i + 1024) :
    slot mem x tables (v + k) ≠ slot mem x tables (v + i) := by
  intro hsame
  have := (Prod.mk.inj hsame).2
  omega

/-- Past the boundary the growth has a new page there, and before it the pages that are left. -/
private theorem across_owning {P : Nat → Prop} (howning : Owning p.space P) (hgrows : Grows image p increment)
    (hacross : p.pageTablesBoundary < p.newBreak increment)
    (hle : p.newBreak increment ≤ p.pageTablesBoundary + PAGE_SIZE)
    (hheap : HeapPages p.space.currHeapEnd (p.pageTables increment + 1))
    (hpage : p.Absent (p.pageTablesBoundary / PAGE_SIZE))
    (hrest : ∀ q, p.currentPageEnd / PAGE_SIZE ≤ q →
      q < p.currentPageEnd / PAGE_SIZE + (p.growth increment - 1) → p.Absent q)
    (hne : r ≠ minusOne) (hcases : Across p increment r p') :
    p'.processBreak = p.newBreak increment ∧ p'.space.cr3 = p.space.cr3 ∧
      Owning p'.space (fun w => (P w ∨ w = p.pageTablesBoundary / PAGE_SIZE) ∨ p.currentPageEnd / PAGE_SIZE ≤ w ∧
        w < p.currentPageEnd / PAGE_SIZE + (p.growth increment - 1)) ∧
      Keeps p.space.mem p'.space.mem p.space.cr3 := by
  cases hcases with
  | refused hr hp => exact absurd hr hne
  | grown f₀ t hs fs gs q₁ q₂ q₃ s₁ s₂ hhs hfs hgs hs₁ hs₂ hrun₁ hfit₁ hfit₂ hr hbreak hspace =>
    have hmoves := hgrows.moves
    obtain ⟨-, -, -, -, htables, hpast⟩ := across_counts hmoves hacross
    have hrun := howning.toRunning
    have hend := currentPageEnd_eq hmoves.old
    have hboundary := pageTablesBoundary_eq hmoves.old
    have hnew := hmoves.newBreak_eq
    have hstack := hgrows.stack
    have htop : Space.stackStart * PAGE_SIZE = 0xBFEFF000 := rfl
    have hgrowth : p.growth increment = (p.newBreak increment - p.currentPageEnd) / 0x1000 := rfl
    obtain ⟨hone, hfirst⟩ : p.pageTables increment = 1 ∧ p.pastBoundary increment = 1 := by
      unfold PAGE_SIZE at hle
      omega
    have hlength : (f₀ :: hs).length = 2 := by rw [Pmm.takeFrames_length hhs, hone]
    have hlength₁ : fs.length = 1 := by rw [Pmm.takeFrames_length hfs, hfirst]
    have hlength₂ : gs.length = p.growth increment - 1 := by rw [Pmm.takeFrames_length hgs, hfirst]
    rw [hone] at hheap
    have hv : HeapPages p.space.currHeapEnd (f₀ :: hs).length := by rwa [hlength]
    obtain ⟨hfree, hbound⟩ := (Pmm.takeFrames_free hhs).2 f₀ List.mem_cons_self
    have hhigh : 0x1800 ≤ f₀ := by
      by_contra hlow
      rw [hrun.low f₀ (by omega)] at hfree
      cases hfree
    unfold PAGE_SIZE at *
    subst hs₁
    -- the heap
    obtain ⟨howning₁, hkeeps₁⟩ := howning.withHeap hv (Nat.succ_pos _) hhs
    -- the page past the boundary
    have hnone₁ : translate (p.space.withHeap (f₀ :: hs) q₁).mem (p.space.withHeap (f₀ :: hs) q₁).cr3
        (p.pageTablesBoundary / 0x1000) = none := by
      rw [Space.withHeap_cr3, translate_withHeap hrun hv (by omega)]
      exact hpage
    have hnotable : ∀ i, i < 1023 →
        ((p.space.withHeap (f₀ :: hs) q₁).mem (p.space.withHeap (f₀ :: hs) q₁).cr3 i).present = true →
        ((p.space.withHeap (f₀ :: hs) q₁).mem (p.space.withHeap (f₀ :: hs) q₁).cr3 i).address ≠ f₀ := by
      intro i hi hpresent heq
      by_cases hlow : i < 768
      · rw [Space.withHeap_cr3, withHeap_directory hrun hv hlow] at hpresent heq
        have hused := (hrun.user i hlow hpresent).1
        rw [heq, hfree] at hused
        cases hused
      · have := hrun₁.kernel i (by omega) hi hpresent
        omega
    obtain ⟨howning₂, hkeeps₂⟩ := howning₁.withRange hfit₁ (by omega) hfs (fun i k hik hk => by omega)
      (fun q hlo hhi => by
        rw [show q = p.pageTablesBoundary / 0x1000 by omega]
        exact unmapped_new hbound hnotable (by omega) hnone₁)
    rw [← hs₂] at howning₂ hkeeps₂
    -- the pages before the boundary, in the table of the break
    obtain ⟨f, hf⟩ := mapped_of_not_refused hrun.toSelfMapped hmoves.old hgrows.mapped
    have hthere := (translate_eq_some.1 hf).1
    have hpresent₂ : ∀ q, p.currentPageEnd / 0x1000 ≤ q → q < p.currentPageEnd / 0x1000 + gs.length →
        (s₂.mem s₂.cr3 (q / 1024)).present = true ∧ translate s₂.mem s₂.cr3 q = none := by
      intro q hlo hhi
      have hentry : ((p.space.withHeap (f₀ :: hs) q₁).mem p.space.cr3 (q / 1024)).present = true := by
        rw [withHeap_directory hrun hv (by omega), show q / 1024 = p.processBreak / 4096 / 1024 by omega]
        exact hthere
      have hnone : translate (p.space.withHeap (f₀ :: hs) q₁).mem p.space.cr3 q = none := by
        rw [translate_withHeap hrun hv (by omega)]
        exact hrest q hlo (by omega)
      rw [hs₂]
      exact ⟨present_withRange_of_present hrun₁ hfit₁ hentry,
        translate_withRange_none hrun₁ hfit₁ hentry (by omega) (fun w hwlo hwhi => by omega) hnone⟩
    have hpmm : s₂.pmm = q₂ := by rw [hs₂, Space.withRange_pmm]
    rw [← hpmm] at hgs
    obtain ⟨howning₃, hkeeps₃⟩ := howning₂.withRange hfit₂ (by omega) hgs (fun i k hik hk => slot_ne hik (by omega))
      (fun q hlo hhi => unmapped_of_none (hpresent₂ q hlo hhi).1 (hpresent₂ q hlo hhi).2)
    have hcr3 : s₂.cr3 = p.space.cr3 := by rw [hs₂, Space.withRange_cr3, Space.withHeap_cr3]
    rw [hcr3] at hkeeps₃
    refine ⟨hbreak, ?_, ?_, ?_⟩
    · rw [hspace, Space.withRange_cr3, hcr3]
    · rw [hspace]
      refine howning₃.mono fun w hw => ?_
      obtain (hw | hw) | hw := hw
      · exact .inl (.inl hw)
      · exact .inl (.inr (by omega))
      · exact .inr (by omega)
    · rw [hspace]
      exact (hkeeps₁.trans hkeeps₂).trans hkeeps₃

/-! ### One call -/

/-- The growth that needs no page, and the one that needs a part of one. -/
private theorem served_of_moved (hkept : Kept image p) (hgrows : Grows image p c.increment)
    (hs : p.sbrk c = some (p.processBreak, { p with processBreak := p.newBreak c.increment }))
    (howning : Owning p.space (ProcessPage image (p.newBreak c.increment))) (hcall : p.sbrk c = some (r, p')) :
    Served image p c.increment r p' := by
  rw [hs] at hcall
  cases hcall
  obtain ⟨hkept', hgranted⟩ := @Grows.granted image p ⟨p.space, p.newBreak c.increment⟩ _ c.increment hgrows rfl rfl rfl
    howning hkept.owning.toSelfMapped (Keeps.refl _ _)
  exact ⟨hkept', fun _ _ _ => hgranted⟩

/-- The page behind that of the break, which is there already. -/
private theorem owning_part (hkept : Kept image p) (hgrows : Grows image p increment)
    (hlt : p.currentPageEnd < p.newBreak increment)
    (hbacked : Backed image (p.newBreak increment) p.space (p.currentPageEnd / PAGE_SIZE)) :
    Owning p.space fun w => ProcessPage image p.processBreak w ∨ w = p.currentPageEnd / PAGE_SIZE := by
  have hmoves := hgrows.moves
  have hend := currentPageEnd_eq hmoves.old
  have hnew := hmoves.newBreak_eq
  have hstack := hgrows.stack
  have htop : Space.stackStart * PAGE_SIZE = 0xBFEFF000 := rfl
  refine hkept.owning.insert (fun w => processPage_mono (by omega)) ?_ hbacked
  unfold PAGE_SIZE
  omega

/-- The growth past the boundary, where the pages before it are there in the end. -/
private theorem served_across {P : Nat → Prop} (howning : Owning p.space P) (hgrows : Grows image p c.increment)
    (hacross : p.pageTablesBoundary < p.newBreak c.increment)
    (hle : p.newBreak c.increment ≤ p.pageTablesBoundary + PAGE_SIZE)
    (hfar : p.currentPageEnd + PAGE_SIZE ≤ p.newBreak c.increment)
    (hsupplied : p.Supplied c.increment) (hpage : p.Absent (p.pageTablesBoundary / PAGE_SIZE))
    (hrest : ∀ q, p.currentPageEnd / PAGE_SIZE ≤ q →
      q < p.currentPageEnd / PAGE_SIZE + (p.growth c.increment - 1) → p.Absent q)
    (hpages : ∀ w, ProcessPage image (p.newBreak c.increment) w →
      (P w ∨ w = p.pageTablesBoundary / PAGE_SIZE) ∨ p.currentPageEnd / PAGE_SIZE ≤ w ∧
        w < p.currentPageEnd / PAGE_SIZE + (p.growth c.increment - 1))
    (hs : p.sbrk c = some (r, p')) : Served image p c.increment r p' := by
  have hmoves := hgrows.moves
  obtain ⟨hbefore, -, -, -, htables, hpast⟩ := across_counts hmoves hacross
  have hgrowth : p.growth c.increment = (p.newBreak c.increment - p.currentPageEnd) / 0x1000 := rfl
  have hcount : p.pastBoundary c.increment ≤ p.growth c.increment := by
    unfold PAGE_SIZE at hle hfar
    omega
  obtain ⟨hr, hcases⟩ := sbrk_across howning.toRunning hmoves hgrows.mapped (by omega) hacross hcount hsupplied.heap
    hsupplied.frames hs
  have hne : r ≠ minusOne := by
    rw [hr]
    exact ne_minusOne hmoves.old
  obtain ⟨hbreak, hcr3, howning', hkeeps⟩ := across_owning howning hgrows hacross hle hsupplied.heap hpage hrest hne hcases
  obtain ⟨hkept', hgranted⟩ := hgrows.granted hr hbreak hcr3 (howning'.mono hpages) howning.toSelfMapped hkeeps
  exact ⟨hkept', fun _ _ _ => hgranted⟩

/-- The growth by whole pages up to the boundary. -/
private theorem served_whole (hkept : Kept image p) (hgrows : Grows image p c.increment)
    (hlt : p.currentPageEnd < p.newBreak c.increment) (hle : p.newBreak c.increment ≤ p.pageTablesBoundary)
    (haligned : p.newBreak c.increment % PAGE_SIZE = 0)
    (habsent : ∀ q, p.currentPageEnd / PAGE_SIZE ≤ q → q < p.newBreak c.increment / PAGE_SIZE → p.Absent q)
    (hfits : (takeFrames (p.growth c.increment) p.space.pmm).isSome = true ∨ p.Restores (p.growth c.increment))
    (hs : p.sbrk c = some (r, p')) : Served image p c.increment r p' := by
  have hmoves := hgrows.moves
  have howning := hkept.owning
  have hrun := howning.toRunning
  have hstack := hgrows.stack
  have htop : Space.stackStart * PAGE_SIZE = 0xBFEFF000 := rfl
  have hend := currentPageEnd_eq hmoves.old
  have hboundary := pageTablesBoundary_eq hmoves.old
  have hnew := hmoves.newBreak_eq
  have hgrowth : p.growth c.increment = (p.newBreak c.increment - p.currentPageEnd) / 0x1000 := rfl
  obtain ⟨hpages, hpresent⟩ := within_present hrun hmoves hgrows.mapped hlt hle
  cases within_cases hrun hmoves hgrows.mapped hlt hle hfits hs with
  | grown t fs q hfs hfit hr hbreak hspace =>
    have hlength := Pmm.takeFrames_length hfs
    have hin : p.currentPageEnd / PAGE_SIZE + fs.length = p.newBreak c.increment / PAGE_SIZE := by
      unfold PAGE_SIZE at haligned ⊢
      omega
    have huser : p.currentPageEnd / PAGE_SIZE + fs.length ≤ 0xC0000 := by
      unfold PAGE_SIZE at hin ⊢
      omega
    obtain ⟨howning', hkeeps⟩ := howning.withRange hfit huser hfs
      (fun i k hik hk => slot_ne hik (by unfold PAGE_SIZE at *; omega))
      (fun q hlo hhi => unmapped_of_none (hpresent q hlo (by omega)) (habsent q hlo (by omega)))
    have hfinal : Owning p'.space (ProcessPage image (p.newBreak c.increment)) := by
      rw [hspace]
      refine howning'.mono fun w hw => ?_
      unfold ProcessPage PAGE_SIZE at *
      omega
    obtain ⟨hkept', hgranted⟩ := hgrows.granted hr hbreak (by rw [hspace, Space.withRange_cr3]) hfinal
      howning.toSelfMapped (by rw [hspace]; exact hkeeps)
    exact ⟨hkept', fun _ _ _ => hgranted⟩
  | restored t fs q hrestorable hlength hfit hnone hcleared hr hbreak hspace hocc hsame =>
    refine ⟨⟨?_, by rw [hbreak]; exact hkept.stack⟩, fun _ _ hne => absurd hr hne⟩
    rw [hbreak, hspace]
    refine howning.restored hrestorable hcleared hfit ?_ hocc
    unfold PAGE_SIZE at *
    omega

private theorem sbrk_served (hkept : Kept image p) (hbacking : p.Backing image c) (hs : p.sbrk c = some (r, p')) :
    Served image p c.increment r p' := by
  have howning := hkept.owning
  have hself := howning.toSelfMapped
  have hbound : p.processBreak < 0xFFC00000 := by
    have hstack := hkept.stack
    have htop : Space.stackStart * PAGE_SIZE = 0xBFEFF000 := rfl
    omega
  have hend := currentPageEnd_eq hbound
  have hboundary := pageTablesBoundary_eq hbound
  cases hbacking with
  | refused hrefused =>
    rw [sbrk_refused hrefused] at hs
    cases hs
    exact ⟨hkept, fun _ _ hne => absurd rfl hne⟩
  | shrinks hmapped hneg hnonneg =>
    have hmoves : Moves p c.increment := ⟨hbound, hnonneg, by omega⟩
    have hnew := hmoves.newBreak_eq
    rw [sbrk_moved hself hbound hmapped (by omega)] at hs
    cases hs
    refine ⟨⟨howning.mono fun w => processPage_mono (by dsimp only; omega), ?_⟩, fun hpos => absurd hpos (by omega)⟩
    exact Nat.le_trans (by dsimp only; omega) hkept.stack
  | moved hgrows hle =>
    refine served_of_moved hkept hgrows (sbrk_moved hself hbound hgrows.mapped hle) (howning.mono fun w hw => ?_) hs
    unfold ProcessPage PAGE_SIZE at *
    omega
  | part hgrows hlt hle hcount hbacked =>
    obtain ⟨t, hsbrk⟩ := @sbrk_within_granted p c [] p.space.pmm howning.toRunning hgrows.moves hgrows.mapped hlt hle
      (by rw [hcount]; rfl)
    refine served_of_moved hkept hgrows hsbrk ((owning_part hkept hgrows hlt hbacked).mono fun w hw => ?_) hs
    have hgrowth : p.growth c.increment = (p.newBreak c.increment - p.currentPageEnd) / 0x1000 := rfl
    unfold ProcessPage PAGE_SIZE at *
    omega
  | whole hgrows hlt hle haligned habsent hfits => exact served_whole hkept hgrows hlt hle haligned habsent hfits hs
  | exhausted hmapped hmoves hlt hacross hexhausted =>
    obtain ⟨rfl, rfl⟩ := sbrk_exhausted howning.toRunning hmoves hmapped hlt hacross hexhausted hs
    exact ⟨hkept, fun _ _ hne => absurd rfl hne⟩
  | acrossWhole hgrows hacross hsupplied habsent =>
    have hgrowth : p.growth c.increment = (p.newBreak c.increment - p.currentPageEnd) / 0x1000 := rfl
    have hpage : p.pageTablesBoundary < p.newBreak c.increment := by
      rw [hacross]
      exact Nat.lt_add_of_pos_right (by decide)
    have hfirst : p.currentPageEnd / PAGE_SIZE ≤ p.pageTablesBoundary / PAGE_SIZE := Nat.div_le_div_right (by omega)
    refine served_across howning hgrows hpage hacross.le ?_ hsupplied (habsent _ hfirst (Nat.le_refl _))
      (fun q hlo hhi => habsent q hlo ?_) (fun w hw => ?_) hs
    · unfold PAGE_SIZE at hacross ⊢
      omega
    · unfold PAGE_SIZE at *
      omega
    · unfold ProcessPage PAGE_SIZE at *
      omega
  | acrossPart hgrows hacross hlt honly hsupplied hbacked habsent =>
    have hgrowth : p.growth c.increment = (p.newBreak c.increment - p.currentPageEnd) / 0x1000 := rfl
    have hpage : p.currentPageEnd < p.newBreak c.increment := by
      rw [← honly] at hacross
      omega
    refine served_across (owning_part hkept hgrows hpage hbacked) hgrows hacross hlt.le (by omega) hsupplied habsent
      (fun q hlo hhi => absurd hhi ?_) (fun w hw => ?_) hs
    · unfold PAGE_SIZE at *
      omega
    · unfold ProcessPage PAGE_SIZE at *
      omega

/-! ### All calls -/

/-- A creation for the user that maps the image below the stack, no two pages through one entry of the table, and whose
break is in the pages of the image or right behind them. -/
structure Settled (s : Space) (creation : Space.Creation) (d : Supply creation s.pmm) : Prop
    extends Clean s creation d where
  mode : creation.isKernelMode = false
  below : creation.image.start + creation.image.pageCount ≤ Space.stackStart
  slots : ∀ q q', creation.image.Loads q → creation.image.Loads q' → q % 1024 = q' % 1024 → q = q'
  inside : creation.image.programBreak ≤ (creation.image.start + creation.image.pageCount) * PAGE_SIZE

variable {s s₁ : Space} {creation : Space.Creation} {d : Supply creation s.pmm} {pd : Nat}

private theorem Settled.owning_pages (h : Settled s creation d)
    (hlimit : limit ≤ (creation.image.start + creation.image.pageCount) * PAGE_SIZE) :
    Owning (Fresh.process s d) (ProcessPage creation.image limit) := by
  refine (h.toClean.owning h.mode h.below h.slots).mono fun w hw => ?_
  unfold ProcessPage PAGE_SIZE DEFAULT_STACK_PAGE_AMOUNT at *
  unfold Space.Image.Loads
  omega

private theorem Settled.kept (h : Settled s creation d)
    (hlimit : limit ≤ (creation.image.start + creation.image.pageCount) * PAGE_SIZE) :
    Kept creation.image ⟨Fresh.process s d, limit⟩ := by
  exact ⟨h.owning_pages hlimit, Nat.le_trans hlimit (Nat.mul_le_mul_right _ h.below)⟩

/-- Backing calls keep the pages of the process its own. -/
private theorem kept_of_run (hstart : Kept image p₀) (hrun : Machine.Run step (Backing image) p₀ cs p) :
    Kept image p := by
  refine Machine.Run.inv (I := Kept image) ?_ hrun hstart
  intro p c p' hp hbacking hstep
  obtain ⟨⟨r, p''⟩, hs, rfl⟩ := Option.map_eq_some_iff.1 hstep
  exact (sbrk_served hp hbacking hs).kept

/-- In every run of backing calls from the load of an image on, each growth that is granted is backed. -/
theorem sbrk_grants (h : Settled s creation d) (hcreate : s.createProcessFromElf creation = some (some pd, s₁))
    (hrun : Machine.Run step (Backing creation.image)
      ⟨{ s₁ with cr3 := d.directory, currentPageDirectory := pd }, creation.image.programBreak⟩ cs p)
    (hbacking : p.Backing creation.image c) (hs : p.sbrk c = some (r, p')) (hpos : 0 < c.increment)
    (hstack : p.processBreak + c.increment ≤ Space.stackStart * PAGE_SIZE) (hr : r ≠ minusOne) :
    Granted creation.image p c.increment r p' := by
  rw [h.process_of_create hcreate] at hrun
  exact (sbrk_served (kept_of_run (h.kept h.inside) hrun) hbacking hs).granted hpos hstack hr

/-! ### A small process -/

private theorem settled_smallCreation {d : Supply smallCreation s.pmm} (h : Clean s smallCreation d) :
    Settled s smallCreation d := by
  have hstart : smallCreation.image.start = 0x8048 := rfl
  have hcount : smallCreation.image.pageCount = 3 := rfl
  have hstack : Space.stackStart = 0xBFEFF := rfl
  refine ⟨h, rfl, by omega, fun q q' hq hq' hsame => ?_, ?_⟩
  · unfold Space.Image.Loads at hq hq'
    omega
  · rw [hstart, hcount]
    decide

/-- It may ask for half a page and then for a page: the loader has mapped them. -/
theorem sbrk_grants_smallProcess : ∃ (s : Space) (d : Supply smallCreation s.pmm) (pd : Nat) (s₁ : Space)
    (p p' : Process), s.createProcessFromElf smallCreation = some (some pd, s₁) ∧
    Machine.Run step (Backing smallCreation.image)
      ⟨{ s₁ with cr3 := d.directory, currentPageDirectory := pd }, 0x8049000⟩ [⟨0x800, false⟩] p ∧
    p.sbrk ⟨0x1000, false⟩ = some (0x8049800, p') ∧ Granted smallCreation.image p 0x1000 0x8049800 p' := by
  obtain ⟨s, d, pd, s₁, hclean, -, hcreate, hprocess, -⟩ :=
    @exists_process smallCreation (by unfold UserPages; decide) (by decide) (by decide)
  have hsettled := settled_smallCreation hclean
  have hstart : smallCreation.image.start = 0x8048 := rfl
  have hcount : smallCreation.image.pageCount = 3 := rfl
  have htop : Space.stackStart * PAGE_SIZE = 0xBFEFF000 := rfl
  have hrefused : ∀ b, 0x8049000 ≤ b → b < 0x804B000 → ¬ Refused ⟨Fresh.process s d, b⟩ := fun b hlo hhi =>
    not_refused hclean rfl hsettled.below hsettled.slots (.inl (by omega))
  -- a growth that ends in the next page
  have hpart : ∀ (b n : Nat), 0x8049000 ≤ b → b + n ≤ 0x804B000 → (b + 0xFFF) / 0x1000 * 0x1000 < b + n →
      b + n < (b + 0xFFF) / 0x1000 * 0x1000 + 0x1000 →
      Backing smallCreation.image ⟨Fresh.process s d, b⟩ ⟨n, false⟩ ∧
        sbrk ⟨Fresh.process s d, b⟩ ⟨n, false⟩ = some (b, ⟨Fresh.process s d, b + n⟩) := by
    intro b n hlo hhi hnext hpage
    obtain ⟨p, hp⟩ : ∃ p : Process, p = ⟨Fresh.process s d, b⟩ := ⟨_, rfl⟩
    have hbreak : p.processBreak = b := by rw [hp]
    have hspace : p.space = Fresh.process s d := by rw [hp]
    have hgrows : Grows smallCreation.image p n := by
      refine ⟨by omega, by omega, ?_, ?_⟩
      · rw [hstart, hbreak]
        unfold PAGE_SIZE
        omega
      · rw [hp]
        exact hrefused b hlo (by omega)
    have hend := currentPageEnd_eq hgrows.moves.old
    have hboundary := pageTablesBoundary_eq hgrows.moves.old
    have hnew := hgrows.moves.newBreak_eq
    rw [hbreak] at hend hboundary hnew
    have hgrowth : p.growth n = 0 := by
      unfold growth PAGE_SIZE
      omega
    have hrun : Running p.space := by
      rw [hspace]
      exact hclean.running
    obtain ⟨t, hsbrk⟩ := @sbrk_within_granted p ⟨n, false⟩ [] p.space.pmm hrun hgrows.moves hgrows.mapped
      (by dsimp only; omega) (by dsimp only; omega) (by rw [hgrowth]; rfl)
    have hbacked : Backed smallCreation.image (p.newBreak n) p.space (p.currentPageEnd / PAGE_SIZE) := by
      rw [hspace]
      refine (hsettled.owning_pages ?_).backed ?_
      · rw [hstart, hcount]
        unfold PAGE_SIZE
        omega
      · unfold ProcessPage PAGE_SIZE
        omega
    rw [← hp]
    refine ⟨.part hgrows (by dsimp only; omega) (by dsimp only; omega) hgrowth hbacked, ?_⟩
    rw [hsbrk, hbreak, ← hspace, show b + n = p.newBreak n by omega]
    rfl
  obtain ⟨hbacking₁, hsbrk₁⟩ := hpart 0x8049000 0x800 (by decide) (by decide) (by decide) (by decide)
  obtain ⟨hbacking₂, hsbrk₂⟩ := hpart 0x8049800 0x1000 (by decide) (by decide) (by decide) (by decide)
  have hrun : Machine.Run step (Backing smallCreation.image)
      ⟨{ s₁ with cr3 := d.directory, currentPageDirectory := pd }, 0x8049000⟩ [⟨0x800, false⟩]
      ⟨Fresh.process s d, 0x8049800⟩ := by
    rw [hprocess]
    refine Machine.Run.cons hbacking₁ ?_ (Machine.Run.nil _)
    unfold step
    rw [show (⟨0x800, false⟩ : SbrkCall) = ⟨((0x800 : Nat) : Int), false⟩ from rfl, hsbrk₁]
    rfl
  exact ⟨s, d, pd, s₁, _, _, hcreate, hrun, hsbrk₂, sbrk_grants hsettled hcreate hrun hbacking₂ hsbrk₂ (by decide)
    (by dsimp only; omega) (by decide)⟩

/-- It gets two pages and a byte, and has no page for the byte. -/
theorem not_sbrk_grants : ¬ ∀ (s : Space) (creation : Space.Creation) (d : Supply creation s.pmm) (pd : Nat)
    (s₁ : Space) (cs : List SbrkCall) (p p' : Process) (c : SbrkCall) (r : Nat), Settled s creation d →
    s.createProcessFromElf creation = some (some pd, s₁) →
    Machine.Run step (fun _ _ => True)
      ⟨{ s₁ with cr3 := d.directory, currentPageDirectory := pd }, creation.image.programBreak⟩ cs p →
    p.sbrk c = some (r, p') → 0 < c.increment →
    p.processBreak + c.increment ≤ Space.stackStart * PAGE_SIZE → r ≠ minusOne →
    Granted creation.image p c.increment r p' := by
  intro hall
  obtain ⟨s, d, pd, s₁, hclean, -, hcreate, hprocess, hrest⟩ :=
    @exists_process smallCreation (by unfold UserPages; decide) (by decide) (by decide)
  have hsettled := settled_smallCreation hclean
  have hstart : smallCreation.image.start = 0x8048 := rfl
  have hcount : smallCreation.image.pageCount = 3 := rfl
  have hstack : Space.stackStart = 0xBFEFF := rfl
  have htop : Space.stackStart * PAGE_SIZE = 0xBFEFF000 := rfl
  obtain ⟨p, hp⟩ : ∃ p : Process, p = ⟨Fresh.process s d, 0x8049000⟩ := ⟨_, rfl⟩
  have hbreak : p.processBreak = 0x8049000 := by rw [hp]
  have hspace : p.space = Fresh.process s d := by rw [hp]
  have hrefused : ¬ p.Refused := by
    rw [hp]
    exact not_refused hclean rfl hsettled.below hsettled.slots (.inl (by omega))
  have hrun : Running p.space := by
    rw [hspace]
    exact hclean.running
  have hmoves : Moves p 0x2001 := ⟨by omega, by omega, by omega⟩
  have hend := currentPageEnd_eq hmoves.old
  have hboundary := pageTablesBoundary_eq hmoves.old
  have hnew := hmoves.newBreak_eq
  have hgrowth : p.growth 0x2001 = 2 := by
    unfold growth PAGE_SIZE
    omega
  obtain ⟨⟨fs, q⟩, hfs⟩ := Option.isSome_iff_exists.1 (hrest 2 (by decide))
  have hpmm : d.rest = p.space.pmm := by rw [hspace]; rfl
  rw [← hgrowth, hpmm] at hfs
  obtain ⟨t, hsbrk⟩ := @sbrk_within_granted p ⟨0x2001, false⟩ fs q hrun hmoves hrefused (by dsimp only; omega)
    (by dsimp only; omega) hfs
  have hgranted := hall s smallCreation d pd s₁ [] p _ ⟨0x2001, false⟩ _ hsettled hcreate
    (by rw [hprocess, hp]; exact Machine.Run.nil _) hsbrk (by decide) (by dsimp only; omega)
    (ne_minusOne hmoves.old)
  -- the page of the last byte
  obtain ⟨f, hf, -⟩ := hgranted.backed 0x804B (by rw [hbreak]; decide)
    (by show 0x804B * PAGE_SIZE < p.newBreak 0x2001; unfold PAGE_SIZE; omega)
  obtain ⟨hpages, hpresent⟩ := @within_present p 0x2001 hrun hmoves hrefused (by omega) (by omega)
  have hfit : Fitting p.space t (p.currentPageEnd / PAGE_SIZE) fs.length := by
    rw [Pmm.takeFrames_length hfs]
    exact fitting_of_present hpages hpresent
  have hlength : fs.length = 2 := by rw [Pmm.takeFrames_length hfs, hgrowth]
  have hfirst : p.currentPageEnd / PAGE_SIZE = 0x8049 := by
    unfold PAGE_SIZE
    omega
  have hthere := hpresent 0x8049 (by omega) (by omega)
  have hbefore : translate p.space.mem p.space.cr3 0x804B = none := by
    rw [hspace]
    apply hclean.translate_none (by decide)
    intro q' hq'
    unfold Space.Image.Loads at hq'
    omega
  have hnone := @translate_withRange_none p.space 0x804B (p.currentPageEnd / PAGE_SIZE) fs q t hrun hfit hthere
    (by decide) (fun w hlo hhi => by omega) hbefore
  have hmapped := hf.translation
  rw [Space.withRange_cr3, hnone] at hmapped
  cases hmapped

end Process

end DBolOS.Paging
