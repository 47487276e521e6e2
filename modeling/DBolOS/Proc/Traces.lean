import DBolOS.Fat.Grow
import DBolOS.Frames
import DBolOS.Proc.Creating

/-!
# What a failed creation leaves behind

Every exit of `create_process` behind the lookup of the file leaves the block of `kmalloc(1)` allocated, so a failed
creation leaves no trace only where the lookup fails or where there is no block for `kmalloc(1)`.  It does leave none
there, as long as the buffers of the lookup fit in the heap (`createProcess_noTrace`).
-/

namespace DBolOS.Proc

open Kmalloc (Heap)
open Paging (Space)
open Pmm (occupied)

namespace Kernel

variable {o : Stale} {k k' k₁ k₂ : Kernel} {path : List UInt8} {isKernelMode created : Bool} {r : Int}
  {a n size elfContent elfLen : Nat} {hlen : elfLen ≤ 0x40000000} {l own blocks : List Nat} {entry : Fat.DirEntry}
  {s s' : Space}

/-! ### Blocks handed out -/

/-- Of what is allocated in `l'`, `own` was handed out behind `l`. -/
def Owes (l l' own : List Nat) : Prop := l'.Perm (own ++ l)

private theorem Owes.refl (l : List Nat) : Owes l l [] := List.Perm.refl _

private theorem Owes.trans {l' l'' own' : List Nat} (h : Owes l l' own) (h' : Owes l' l'' own') :
    Owes l l'' (own' ++ own) := by
  unfold Owes at h h' ⊢
  rw [List.append_assoc]
  exact h'.trans (h.append_left own')

private theorem Owes.perm {l' own' : List Nat} (h : Owes l l' own) (hown : own.Perm own') : Owes l l' own' :=
  List.Perm.trans h (hown.append_right l)

private theorem kmalloc_owes (h : k.kmalloc size = some (a, k')) : Owes k.live k'.live (blockAt a) := by
  obtain ⟨⟨r, heap⟩, -, h⟩ := Option.bind_eq_some_iff.1 h
  obtain ⟨⟨allocated, space⟩, -, h⟩ := Option.bind_eq_some_iff.1 h
  cases h
  exact List.Perm.refl _

private theorem kmallocPages_owes (h : k.kmallocPages n = some (a, k')) : Owes k.live k'.live (blockAt a) := by
  obtain ⟨⟨r, heap⟩, -, h⟩ := Option.bind_eq_some_iff.1 h
  obtain ⟨⟨allocated, space⟩, -, h⟩ := Option.bind_eq_some_iff.1 h
  cases h
  exact List.Perm.refl _

@[simp] theorem fill_live (k : Kernel) (addr : Nat) (bytes : List UInt8) : (k.fill addr bytes).live = k.live := by
  unfold fill
  split <;> rfl

private theorem diff_blockAt (a : Nat) (l : List Nat) : (blockAt a ++ l).diff (blockAt a) = l := by
  unfold blockAt
  split
  · exact List.diff_nil l
  · simp

/-- A block that was handed out is given back. -/
private theorem kfree_owes (h : k.kfree a = some k') (howes : Owes l k.live (blockAt a ++ own)) :
    Owes l k'.live own := by
  obtain ⟨heap, -, h⟩ := Option.bind_eq_some_iff.1 h
  obtain ⟨space, -, h⟩ := Option.bind_eq_some_iff.1 h
  cases h
  unfold Owes at howes ⊢
  rw [List.append_assoc] at howes
  have hdiff := howes.diff_right (blockAt a)
  rwa [diff_blockAt] at hdiff

private theorem kfrees_owes (h : blocks.foldlM kfree k = some k')
    (howes : Owes l k.live (blocks.flatMap blockAt ++ own)) :
    Owes l k'.live own := by
  induction blocks generalizing k with
  | nil =>
    cases h
    exact howes
  | cons a blocks ih =>
    obtain ⟨k₁, ha, h⟩ := Option.bind_eq_some_iff.1 h
    rw [List.flatMap_cons, List.append_assoc] at howes
    exact ih h (kfree_owes ha howes)

private theorem giveUp_owes (h : k.giveUp blocks = some (created, k'))
    (howes : Owes l k.live (blocks.flatMap blockAt ++ own)) : Owes l k'.live own := by
  obtain ⟨k₁, hfree, h⟩ := Option.bind_eq_some_iff.1 h
  obtain ⟨manager, -, h⟩ := Option.bind_eq_some_iff.1 h
  cases h
  show Owes l k₁.live own
  exact kfrees_owes hfree howes

/-! ### Exits behind the lookup -/

/-- The page tables are handed out, and may be given back. -/
private theorem elfLoadProcess_owes (h : k.elfLoadProcess o elfContent elfLen hlen isKernelMode = some (a, k')) :
    ∃ own, Owes k.live k'.live own := by
  unfold elfLoadProcess at h
  dsimp only at h
  split at h
  · cases h
  obtain ⟨⟨tables, k₁⟩, htables, h⟩ := Option.bind_eq_some_iff.1 h
  obtain ⟨phys, -, h⟩ := Option.bind_eq_some_iff.1 h
  obtain ⟨⟨allocated, space⟩, -, h⟩ := Option.bind_eq_some_iff.1 h
  have howes : Owes k.live (k₁.fill tables o.pageTables).live (blockAt tables ++ []) := by
    rw [fill_live, List.append_nil]
    exact kmallocPages_owes htables
  cases allocated with
  | false =>
    obtain ⟨k₂, hfree, h⟩ := Option.bind_eq_some_iff.1 h
    cases h
    exact ⟨[], kfree_owes hfree howes⟩
  | true =>
    obtain ⟨⟨allocated, space'⟩, -, h⟩ := Option.bind_eq_some_iff.1 h
    cases allocated with
    | false =>
      obtain ⟨space'', -, h⟩ := Option.bind_eq_some_iff.1 h
      obtain ⟨k₂, hfree, h⟩ := Option.bind_eq_some_iff.1 h
      cases h
      exact ⟨[], kfree_owes hfree howes⟩
    | true =>
      dsimp only at h
      split at h
      · rename_i hfalse
        cases hfalse
      split at h
      · cases h
        exact ⟨_, howes⟩
      · cases h

private theorem startProcess_owes {prevPd node pageDirectory : Nat}
    (h : k.startProcess o elfContent elfLen hlen isKernelMode prevPd node pageDirectory = some (created, k'))
    (howes : Owes l k.live (blockAt pageDirectory ++ blockAt node ++ own)) : ∃ own, Owes l k'.live own := by
  obtain ⟨space, -, h⟩ := Option.bind_eq_some_iff.1 h
  obtain ⟨space', -, h⟩ := Option.bind_eq_some_iff.1 h
  obtain ⟨⟨programBreak, k₂⟩, hload, h⟩ := Option.bind_eq_some_iff.1 h
  obtain ⟨space'', -, h⟩ := Option.bind_eq_some_iff.1 h
  obtain ⟨own', hown'⟩ := elfLoadProcess_owes hload
  dsimp only at hown'
  rw [fill_live] at hown'
  have hall : Owes l k₂.live (own' ++ (blockAt pageDirectory ++ blockAt node ++ own)) := howes.trans hown'
  dsimp only at h
  split at h
  · refine ⟨own' ++ own, giveUp_owes h (hall.perm ?_)⟩
    simp only [List.flatMap_cons, List.flatMap_nil, List.append_nil, ← List.append_assoc]
    refine List.Perm.append_right own ?_
    rw [List.append_assoc]
    exact List.perm_append_comm
  · obtain ⟨manager, -, h⟩ := Option.bind_eq_some_iff.1 h
    obtain ⟨space₃, -, h⟩ := Option.bind_eq_some_iff.1 h
    cases h
    exact ⟨_, hall⟩

private theorem createProcessFromElf_owes
    (h : k.createProcessFromElf o elfContent elfLen hlen isKernelMode = some (created, k')) :
    ∃ own, Owes k.live k'.live own := by
  unfold createProcessFromElf at h
  split at h
  · cases h
    exact ⟨[], Owes.refl _⟩
  split at h
  · cases h
    exact ⟨[], Owes.refl _⟩
  obtain ⟨space, -, h⟩ := Option.bind_eq_some_iff.1 h
  obtain ⟨⟨node, k₁⟩, hnode, h⟩ := Option.bind_eq_some_iff.1 h
  have hnode' := kmalloc_owes hnode
  dsimp only at h hnode'
  split at h
  · cases h
    exact ⟨_, hnode'⟩
  obtain ⟨⟨stack, k₂⟩, hstack, h⟩ := Option.bind_eq_some_iff.1 h
  obtain ⟨⟨pageDirectory, k₃⟩, hdirectory, h⟩ := Option.bind_eq_some_iff.1 h
  have hstack' := kmallocPages_owes hstack
  rw [fill_live] at hstack'
  have hall := (hnode'.trans hstack').trans (kmallocPages_owes hdirectory)
  dsimp only at h
  split at h
  · rename_i hnull
    refine ⟨blockAt stack, giveUp_owes h (hall.perm ?_)⟩
    rw [hnull]
    simp only [List.flatMap_cons, List.flatMap_nil, List.append_nil]
    show (blockAt stack ++ blockAt node).Perm _
    exact List.perm_append_comm
  · have hperm : (blockAt pageDirectory ++ (blockAt stack ++ blockAt node)).Perm
        (blockAt pageDirectory ++ blockAt node ++ blockAt stack) := by
      rw [List.append_assoc]
      exact List.Perm.append_left _ List.perm_append_comm
    exact startProcess_owes h (hall.perm hperm)

private theorem fatRead_owes {size buffer : Nat} (h : k.fatRead o entry size buffer = some k') :
    Owes k.live k'.live [] := by
  obtain ⟨⟨count, bytes⟩, -, h⟩ := Option.bind_eq_some_iff.1 h
  dsimp only at h
  split at h
  · cases h
    exact Owes.refl _
  obtain ⟨⟨cluster, k₁⟩, hcluster, h⟩ := Option.bind_eq_some_iff.1 h
  have howes := kmalloc_owes hcluster
  dsimp only at h howes
  split at h
  · rename_i hnull
    cases h
    rw [hnull] at howes
    exact howes
  · refine kfree_owes h ?_
    rw [fill_live, fill_live, List.append_nil]
    exact howes

private theorem createFromFile_owes (h : k.createFromFile o entry isKernelMode = some (r, k')) :
    ∃ own, Owes k.live k'.live own := by
  unfold createFromFile at h
  dsimp only at h
  obtain ⟨⟨elfContent, k₁⟩, hcontent, h⟩ := Option.bind_eq_some_iff.1 h
  dsimp only at h
  split at h
  · cases h
  obtain ⟨k₂, hread, h⟩ := Option.bind_eq_some_iff.1 h
  have hread' := fatRead_owes hread
  rw [fill_live] at hread'
  have howes := (kmalloc_owes hcontent).trans hread'
  split at h
  · split at h
    · obtain ⟨k₃, hfree, h⟩ := Option.bind_eq_some_iff.1 h
      cases h
      refine ⟨[], kfree_owes hfree ?_⟩
      rw [List.append_nil]
      exact howes
    · obtain ⟨⟨created, k₃⟩, hcreate, h⟩ := Option.bind_eq_some_iff.1 h
      obtain ⟨k₄, hfree, h⟩ := Option.bind_eq_some_iff.1 h
      obtain ⟨own, hown⟩ := createProcessFromElf_owes hcreate
      cases h
      refine ⟨own, kfree_owes hfree ?_⟩
      exact (howes.trans hown).perm List.perm_append_comm
  · cases h

/-! ### The lookup -/

private theorem directoryBuffer_owes (h : directoryBuffer o n k = some k') : Owes k.live k'.live [] := by
  obtain ⟨⟨dir, k₁⟩, hdir, h⟩ := Option.bind_eq_some_iff.1 h
  dsimp only at h
  split at h
  · cases h
  · refine kfree_owes h ?_
    rw [fill_live, List.append_nil]
    exact kmalloc_owes hdir

private theorem directoryBuffers_owes (h : directoryBuffers o n k = some k') : Owes k.live k'.live [] := by
  induction n generalizing k with
  | zero =>
    cases h
    exact Owes.refl _
  | succ n ih =>
    obtain ⟨k₁, hbuffer, h⟩ := Option.bind_eq_some_iff.1 h
    exact (directoryBuffer_owes hbuffer).trans (ih h)

/-- The buffers of `n` lookups fit in the heap: no page is mapped for them, and none is unmapped behind them. -/
def BuffersFit (o : Stale) : Nat → Kernel → Prop
  | 0, _ => True
  | n + 1, k =>
    (∀ dir k₁, k.kmalloc k.volume.fs.bytesPerCluster = some (dir, k₁) → k₁.heap.currHeapEnd = k.heap.currHeapEnd) ∧
      ∀ k₁, directoryBuffer o n k = some k₁ → k₁.heap.currHeapEnd = k.heap.currHeapEnd ∧ BuffersFit o n k₁

/-- The pages, the processes and where the heap ends are as before. -/
structure Still (k k' : Kernel) : Prop where
  space : k'.space = k.space
  manager : k'.manager = k.manager
  heapEnd : k'.heap.currHeapEnd = k.heap.currHeapEnd

private theorem Still.refl (k : Kernel) : Still k k := ⟨rfl, rfl, rfl⟩

private theorem Still.trans (h : Still k k₁) (h' : Still k₁ k') : Still k k' :=
  ⟨h'.space.trans h.space, h'.manager.trans h.manager, h'.heapEnd.trans h.heapEnd⟩

private theorem fill_still (k : Kernel) (addr : Nat) (bytes : List UInt8) : Still k (k.fill addr bytes) := by
  unfold fill
  split
  · exact Still.refl k
  · exact ⟨rfl, rfl, rfl⟩

private theorem kmalloc_still (h : k.kmalloc size = some (a, k')) (ha : a ≠ 0 ∨ size = 0)
    (hend : k'.heap.currHeapEnd = k.heap.currHeapEnd) : Still k k' := by
  obtain ⟨⟨r, heap⟩, -, h⟩ := Option.bind_eq_some_iff.1 h
  obtain ⟨⟨allocated, space⟩, hspace, h⟩ := Option.bind_eq_some_iff.1 h
  cases h
  have hend' : heap.currHeapEnd = k.heap.currHeapEnd := hend
  have hasked : k.asked size a heap = 0 := by
    unfold asked grown
    rw [if_pos (ha.imp_right .inl), hend', Nat.sub_self, Nat.zero_div]
  rw [hasked] at hspace
  cases hspace
  exact ⟨rfl, rfl, hend⟩

private theorem kfree_still (h : k.kfree a = some k') (hend : k'.heap.currHeapEnd = k.heap.currHeapEnd) :
    Still k k' := by
  obtain ⟨heap, -, h⟩ := Option.bind_eq_some_iff.1 h
  obtain ⟨space, hspace, h⟩ := Option.bind_eq_some_iff.1 h
  cases h
  have hend' : heap.currHeapEnd = k.heap.currHeapEnd := hend
  rw [hend', decide_eq_false (Nat.lt_irrefl _)] at hspace
  cases hspace
  exact ⟨rfl, rfl, hend⟩

private theorem directoryBuffers_still (hfit : BuffersFit o n k) (h : directoryBuffers o n k = some k') :
    Still k k' := by
  induction n generalizing k with
  | zero =>
    cases h
    exact Still.refl _
  | succ n ih =>
    obtain ⟨hmalloc, hbuffer⟩ := hfit
    obtain ⟨k₁, hk₁, h⟩ := Option.bind_eq_some_iff.1 h
    obtain ⟨hend, hrest⟩ := hbuffer k₁ hk₁
    refine Still.trans ?_ (ih hrest h)
    obtain ⟨⟨dir, k₂⟩, hdir, hk₁⟩ := Option.bind_eq_some_iff.1 hk₁
    have hend₂ := hmalloc dir k₂ hdir
    dsimp only at hk₁
    split at hk₁
    · cases hk₁
    · rename_i hne
      have hfill := fill_still k₂ dir ((o.directory n).take k.volume.fs.bytesPerCluster)
      have hstill := (kmalloc_still hdir (.inl hne) hend₂).trans hfill
      exact hstill.trans (kfree_still hk₁ (hend.trans hstill.heapEnd.symm))

/-! ### No memory left -/

/-- The heap ends where its pages end, and the frame `0` is not handed out. -/
structure Settled (k : Kernel) : Prop where
  heapEnd : k.heap.currHeapEnd = k.space.currHeapEnd * Kmalloc.PAGE_SIZE
  zero : occupied k.space.pmm 0 = true

private theorem Settled.still (hk : Settled k) (h : Still k k') : Settled k' := by
  refine ⟨?_, ?_⟩
  · rw [h.heapEnd, h.space]
    exact hk.heapEnd
  · rw [h.space]
    exact hk.zero

/-- A page that could not be mapped changes nothing. -/
private theorem allocateHeapPage_false (h : s.allocateHeapPage = some (false, s')) (hzero : occupied s.pmm 0 = true) :
    s' = s := by
  unfold Space.allocateHeapPage at h
  split at h
  · cases h
    rfl
  obtain ⟨⟨allocated, s₁⟩, hpage, h⟩ := Option.bind_eq_some_iff.1 h
  cases allocated with
  | true => cases h
  | false =>
    cases h
    obtain ⟨⟨f, p⟩, halloc, hpage⟩ := Option.bind_eq_some_iff.1 hpage
    dsimp only at hpage
    split at hpage
    · rename_i hf
      cases hpage
      rcases Pmm.pmmAllocatePage_cases halloc with ⟨-, rfl⟩ | ⟨hfree, -⟩
      · rfl
      · rw [hf, hzero] at hfree
        cases hfree
    · obtain ⟨s₂, -, hpage⟩ := Option.bind_eq_some_iff.1 hpage
      cases hpage

/-- Where the heap has no page left, asking for one changes nothing. -/
private theorem kmalloc_one_false {allocated : Bool} (h : Space.kmalloc 1 s = some (allocated, s'))
    (hroom : Paging.KERNEL_HEAP_END ≤ s.currHeapEnd ∨ room s = 0) (hzero : occupied s.pmm 0 = true) : s' = s := by
  obtain ⟨⟨mapped, s₁⟩, hpage, h⟩ := Option.bind_eq_some_iff.1 h
  cases mapped with
  | false =>
    cases h
    exact allocateHeapPage_false hpage hzero
  | true =>
    exfalso
    rcases hroom with hfull | hroom
    · unfold Space.allocateHeapPage at hpage
      rw [if_pos hfull] at hpage
      cases hpage
    · unfold room at hroom
      cases hn : Paging.KERNEL_HEAP_END - s.currHeapEnd with
      | zero =>
        unfold Space.allocateHeapPage at hpage
        rw [if_pos (by omega)] at hpage
        cases hpage
      | succ n =>
        rw [hn] at hroom
        unfold roomFrom at hroom
        rw [hpage] at hroom
        cases hroom

/-- Where there is no block for `kmalloc(1)`, and no page for it, there is none for any size. -/
private theorem kmalloc_null (hk : Settled k) (h : k.kmalloc 1 = some (0, k'))
    (hend : k'.heap.currHeapEnd = k.heap.currHeapEnd) :
    Still k k' ∧ ∀ size, k'.heap.kmalloc size k'.pages = some (0, k'.heap) := by
  obtain ⟨⟨r, heap⟩, hheap, h⟩ := Option.bind_eq_some_iff.1 h
  obtain ⟨⟨allocated, space⟩, hspace, h⟩ := Option.bind_eq_some_iff.1 h
  cases h
  have hend' : heap.currHeapEnd = k.heap.currHeapEnd := hend
  obtain ⟨rfl, halloc, hall⟩ := Kmalloc.kmalloc_null hheap hend'
  have hgrown : k.grown k.heap = 0 := by
    unfold grown
    rw [Nat.sub_self, Nat.zero_div]
  have hasked : k.asked 1 0 k.heap = 1 := by
    unfold asked
    rw [if_neg (by decide), hgrown]
  rw [hasked] at hspace
  have hroom : Paging.KERNEL_HEAP_END ≤ k.space.currHeapEnd ∨ room k.space = 0 := by
    have hheapEnd := hk.heapEnd
    unfold Heap.allocateHeapPage at halloc
    split at halloc
    · rename_i hfull
      left
      unfold Paging.KERNEL_HEAP_END
      unfold Kmalloc.KERNEL_HEAP_END at hfull
      unfold Kmalloc.PAGE_SIZE at hheapEnd
      omega
    · right
      cases hpages : k.pages with
      | nil =>
        have hlength := congrArg List.length hpages
        simpa [pages] using hlength
      | cons page rest =>
        rw [hpages] at halloc
        cases halloc
  obtain rfl := kmalloc_one_false hspace hroom hk.zero
  refine ⟨⟨rfl, rfl, rfl⟩, fun size => ?_⟩
  have hpages : (k.handedOut 0 k.heap k.space).pages = k.pages := by
    unfold pages handedOut
    dsimp only
    rw [hgrown]
    rfl
  rw [hpages]
  exact hall size

/-- Then only an empty file is read, and nothing is allocated for it. -/
private theorem createFromFile_still (hnull : ∀ size, k.heap.kmalloc size k.pages = some (0, k.heap))
    (h : k.createFromFile o entry isKernelMode = some (r, k')) : Still k k' ∧ Owes k.live k'.live [] := by
  obtain ⟨⟨elfContent, k₁⟩, hcontent, h⟩ := Option.bind_eq_some_iff.1 h
  dsimp only at h
  have hzero : elfContent = 0 ∧ k₁.heap = k.heap := by
    obtain ⟨⟨r, heap⟩, hheap, hcontent⟩ := Option.bind_eq_some_iff.1 hcontent
    obtain ⟨⟨allocated, space⟩, -, hcontent⟩ := Option.bind_eq_some_iff.1 hcontent
    rw [hnull] at hheap
    cases hheap
    cases hcontent
    exact ⟨rfl, rfl⟩
  obtain ⟨rfl, hheap⟩ := hzero
  split at h
  · cases h
  rename_i hempty
  have hlen : entry.fileSize.toNat = 0 := by
    by_contra hne
    exact hempty ⟨rfl, hne⟩
  have hsize : entry.fileSize = 0 := UInt32.toNat_inj.1 hlen
  have hstill := kmalloc_still hcontent (.inr hlen) (congrArg Heap.currHeapEnd hheap)
  obtain ⟨k₂, hread, hrest⟩ := Option.bind_eq_some_iff.1 h
  obtain rfl : k₂ = k₁ := by
    obtain ⟨⟨count, bytes⟩, -, hread⟩ := Option.bind_eq_some_iff.1 hread
    dsimp only at hread
    rw [if_pos (.inr hsize)] at hread
    cases hread
    rfl
  split at hrest
  · rename_i hle
    have hshort : (k₂.file 0 entry.fileSize.toNat hle).len < Elf.sizeofHdr := by
      show entry.fileSize.toNat < 52
      omega
    have hinvalid : (!(k₂.file 0 entry.fileSize.toNat hle).elfIsValidAndLoadable) = true := by
      unfold Elf.File.elfIsValidAndLoadable
      rw [if_pos hshort]
      rfl
    rw [if_pos hinvalid] at hrest
    obtain ⟨k₃, hfree, hrest⟩ := Option.bind_eq_some_iff.1 hrest
    cases hrest
    have hend : k'.heap.currHeapEnd = k₂.heap.currHeapEnd := by
      obtain ⟨space, -, hfree⟩ := Option.bind_eq_some_iff.1 hfree
      cases hfree
      rfl
    refine ⟨hstill.trans (kfree_still hfree hend), kfree_owes hfree ?_⟩
    rw [List.append_nil]
    exact kmalloc_owes hcontent
  · cases hrest

/-! ### Traces -/

/-- The directory that was loaded is loaded, the processes are as they were, and the same frames are free and the same
blocks allocated. -/
structure NoTrace (k k' : Kernel) : Prop where
  directory : k'.space.cr3 = k.space.cr3 ∧ k'.space.currentPageDirectory = k.space.currentPageDirectory
  processes : k'.manager.nodes = k.manager.nodes ∧ k'.manager.processListHead = k.manager.processListHead ∧
    k'.manager.processListTail = k.manager.processListTail
  frames : ∀ f, f < 0x100000 → occupied k'.space.pmm f = occupied k.space.pmm f
  blocks : k'.live.Perm k.live

private theorem Still.noTrace (h : Still k k') (hlive : Owes k.live k'.live []) : NoTrace k k' := by
  refine ⟨?_, ?_, ?_, hlive⟩
  · rw [h.space]
    exact ⟨rfl, rfl⟩
  · rw [h.manager]
    exact ⟨rfl, rfl, rfl⟩
  · intro f _
    rw [h.space]

/-- The lookup of the file fails, or there is no block for `kmalloc(1)` behind it. -/
def LeavesNothing (o : Stale) (k : Kernel) (path : List UInt8) : Prop :=
  (∃ err k₁, k.fatGetFileData o path = some (.error err, k₁)) ∨
    ∃ data k₁ k₂, k.fatGetFileData o path = some (.ok data, k₁) ∧ k₁.kmalloc 1 = some (0, k₂)

/-- The lookup, and a search for `kmalloc(1)` that fails, map no page and unmap none. -/
structure Fits (o : Stale) (k : Kernel) (path : List UInt8) : Prop where
  settled : Settled k
  buffers : BuffersFit o (Fat.fileDataLookups o.path k.volume path) k
  one : ∀ data k₁ k₂, k.fatGetFileData o path = some (.ok data, k₁) → k₁.kmalloc 1 = some (0, k₂) →
    k₂.heap.currHeapEnd = k₁.heap.currHeapEnd

private theorem fatGetFileData_owes {result : Except Int Fat.FileData}
    (h : k.fatGetFileData o path = some (result, k₁)) :
    Owes k.live k₁.live [] := by
  obtain ⟨result', -, h⟩ := Option.bind_eq_some_iff.1 h
  obtain ⟨k₂, hbuffers, h⟩ := Option.bind_eq_some_iff.1 h
  cases h
  exact directoryBuffers_owes hbuffers

private theorem Fits.still {result : Except Int Fat.FileData} (hfits : Fits o k path)
    (h : k.fatGetFileData o path = some (result, k₁)) : Still k k₁ := by
  obtain ⟨result', -, h⟩ := Option.bind_eq_some_iff.1 h
  obtain ⟨k₂, hbuffers, h⟩ := Option.bind_eq_some_iff.1 h
  cases h
  exact directoryBuffers_still hfits.buffers hbuffers

/-- A failed creation that leaves no trace is one that leaves nothing allocated, and where the lookup fits in the heap
the converse holds. -/
theorem createProcess_noTrace (h : k.createProcess o path isKernelMode = some (r, k')) (hr : r ≠ 0) :
    (NoTrace k k' → LeavesNothing o k path) ∧ (Fits o k path → (NoTrace k k' ↔ LeavesNothing o k path)) := by
  unfold createProcess at h
  split at h
  · cases h
    exact absurd rfl hr
  obtain ⟨⟨result, k₁⟩, hlookup, h⟩ := Option.bind_eq_some_iff.1 h
  have hlookup' := fatGetFileData_owes hlookup
  cases result with
  | error err =>
    cases h
    have hleaves : LeavesNothing o k path := .inl ⟨r, k', hlookup⟩
    exact ⟨fun _ => hleaves, fun hfits => ⟨fun _ => hleaves, fun _ => (hfits.still hlookup).noTrace hlookup'⟩⟩
  | ok data =>
    obtain ⟨⟨one, k₂⟩, hone, h⟩ := Option.bind_eq_some_iff.1 h
    obtain ⟨own, hown⟩ := createFromFile_owes h
    have howes := hlookup'.trans (kmalloc_owes hone)
    have hleft : NoTrace k k' → LeavesNothing o k path := by
      intro hnone
      refine .inr ⟨data, k₁, k₂, hlookup, ?_⟩
      suffices hzero : one = 0 by rwa [hzero] at hone
      by_contra hne
      have hlength := (hnone.blocks.symm.trans (howes.trans hown)).length_eq
      unfold blockAt at hlength
      simp only [if_neg hne, List.length_append, List.length_cons, List.length_nil] at hlength
      omega
    refine ⟨hleft, fun hfits => ⟨hleft, ?_⟩⟩
    rintro (⟨err, k₃, herr⟩ | ⟨data', k₃, k₄, hlookup₃, hone₃⟩)
    · rw [hlookup] at herr
      cases herr
    · rw [hlookup] at hlookup₃
      cases hlookup₃
      have hsettled := hfits.settled.still (hfits.still hlookup)
      obtain ⟨hstill, hnull⟩ := kmalloc_null hsettled hone₃ (hfits.one _ _ _ hlookup hone₃)
      rw [hone] at hone₃
      cases hone₃
      obtain ⟨hstill', hown'⟩ := createFromFile_still hnull h
      exact (((hfits.still hlookup).trans hstill).trans hstill').noTrace (howes.trans hown')

/-! ### An empty file -/

private theorem kmalloc_found {heap : Heap} (h : k.heap.kmalloc size [] = some (a, heap)) (ha : a ≠ 0)
    (hend : heap.currHeapEnd = k.heap.currHeapEnd) : k.kmalloc size = some (a, k.handedOut a heap k.space) := by
  unfold kmalloc
  rw [Kmalloc.kmalloc_of_nil ha h, Option.bind_eq_bind, Option.bind_some]
  have hasked : k.asked size a heap = 0 := by
    unfold asked grown
    rw [if_pos (.inl ha), hend, Nat.sub_self, Nat.zero_div]
  dsimp only
  rw [hasked]
  rfl

private theorem kfree_found {heap : Heap} (h : k.heap.kfree a = some heap)
    (hend : heap.currHeapEnd = k.heap.currHeapEnd) :
    k.kfree a = some { k with heap, live := k.live.diff (blockAt a) } := by
  unfold kfree
  rw [h, Option.bind_eq_bind, Option.bind_some, hend, decide_eq_false (Nat.lt_irrefl _)]
  rfl

private theorem directoryBuffer_found {h₂ h₃ : Heap} (hsize : k.volume.fs.bytesPerCluster = size)
    (hmalloc : k.heap.kmalloc size [] = some (a, h₂)) (ha : a ≠ 0) (hend₂ : h₂.currHeapEnd = k.heap.currHeapEnd)
    (hfree : Heap.kfree { h₂ with bytes := ByteMem.writeBytes h₂.bytes a ((o.directory n).take size) } a = some h₃)
    (hend₃ : h₃.currHeapEnd = k.heap.currHeapEnd) :
    k.kmalloc size = some (a, k.handedOut a h₂ k.space) ∧
      ∃ k', directoryBuffer o n k = some k' ∧ k'.heap = h₃ ∧ k'.live = k.live := by
  have hfound := kmalloc_found hmalloc ha hend₂
  obtain ⟨k₁, hk₁⟩ : ∃ k₁, k₁ = (k.handedOut a h₂ k.space).fill a ((o.directory n).take size) := ⟨_, rfl⟩
  have hheap₁ : k₁.heap = { h₂ with bytes := ByteMem.writeBytes h₂.bytes a ((o.directory n).take size) } := by
    rw [hk₁, fill, if_neg ha]
    rfl
  have hlive₁ : k₁.live = blockAt a ++ k.live := by
    rw [hk₁, fill_live]
    rfl
  have hgiven : k₁.kfree a = some { k₁ with heap := h₃, live := k₁.live.diff (blockAt a) } := by
    refine kfree_found (by rw [hheap₁]; exact hfree) ?_
    rw [hheap₁, hend₃]
    exact hend₂.symm
  refine ⟨hfound, { k₁ with heap := h₃, live := k₁.live.diff (blockAt a) }, ?_, rfl, ?_⟩
  · unfold directoryBuffer
    dsimp only
    rw [hsize, hfound, Option.bind_eq_bind, Option.bind_some, if_neg ha, ← hk₁]
    exact hgiven
  · show k₁.live.diff (blockAt a) = _
    rw [hlive₁, diff_blockAt]

/-- An empty file is no program, and nothing is allocated for it. -/
private theorem createFromFile_empty (o : Stale) (k : Kernel) (entry : Fat.DirEntry) (hsize : entry.fileSize = 0)
    (isKernelMode : Bool) : ∃ k', k.createFromFile o entry isKernelMode = some (-1, k') ∧ k'.live = k.live := by
  obtain ⟨k₁, hk₁⟩ : ∃ k₁, k₁ = k.handedOut 0 k.heap k.space := ⟨_, rfl⟩
  have hmalloc : k.kmalloc 0 = some (0, k₁) := by
    have hasked : k.asked 0 0 k.heap = 0 := by
      unfold asked grown
      rw [if_pos (by decide), Nat.sub_self, Nat.zero_div]
    unfold kmalloc
    show ((Space.kmalloc (k.asked 0 0 k.heap) k.space).bind _) = _
    rw [hasked, hk₁]
    rfl
  have hread : k₁.fatRead o entry 0 0 = some k₁ := by
    obtain ⟨result, hresult⟩ : ∃ result, k₁.volume.fatRead entry 0 0 = some result := by
      unfold Fat.Volume.fatRead
      split
      · exact ⟨_, rfl⟩
      · rw [if_pos (by rw [hsize]; decide)]
        exact ⟨_, rfl⟩
    unfold fatRead
    rw [hresult]
    exact if_pos (.inr hsize)
  have hfree : k₁.kfree 0 = some k₁ := by
    show ((k₁.space.kfree (decide (k₁.heap.currHeapEnd < k₁.heap.currHeapEnd))).bind _) = _
    rw [decide_eq_false (Nat.lt_irrefl _)]
    rfl
  refine ⟨k₁, ?_, by rw [hk₁]; rfl⟩
  have hlen : entry.fileSize.toNat = 0 := by rw [hsize]; rfl
  unfold createFromFile
  rw [hlen]
  dsimp only
  rw [hmalloc, Option.bind_eq_bind, Option.bind_some, if_neg (fun hand => hand.2 rfl)]
  show ((k₁.fatRead o entry 0 0).bind _) = _
  rw [hread, Option.bind_some, dif_pos (by decide), if_pos (by rfl), hfree]
  rfl

/-- The kernel behind `fat_init`, with the table of the file system as the only block. -/
def booted (volume : Fat.Volume) (space : Space) (heap : Heap) (fatTable : Nat) : Kernel where
  volume
  space
  heap
  live := [fatTable]
  contents := fun _ _ => 0
  manager := Manager.boot
  manageInitialized := true

/-- Zeroed memory. -/
def blank : Stale where
  path := fun _ => 0
  directory := fun _ => []
  cluster := []
  nodeBytes := []
  pageDirectory := []
  pageTables := []
  node := Process.zero
  programBreak := 0

/-- The heap behind `fat_init` has room for the buffer of a lookup, and for one byte behind that. -/
private theorem exists_room : ∃ h fatTable heap dir h₂ h₃ one h₄, Heap.heapInit .static [fun _ => 0] = some (true, h) ∧
    h.kmalloc 512 [] = some (fatTable, heap) ∧ heap.currHeapEnd = 0xC1801000 ∧
    heap.kmalloc 512 [] = some (dir, h₂) ∧ dir ≠ 0 ∧ h₂.currHeapEnd = heap.currHeapEnd ∧
    Heap.kfree { h₂ with bytes := ByteMem.writeBytes h₂.bytes dir [] } dir = some h₃ ∧
    h₃.currHeapEnd = heap.currHeapEnd ∧ h₃.kmalloc 1 [] = some (one, h₄) ∧ one ≠ 0 ∧ one ≠ fatTable ∧
    h₄.currHeapEnd = heap.currHeapEnd := by
  have hrun : ((Heap.heapInit .static [fun _ => 0]).bind fun r => (r.2.kmalloc 512 []).bind fun r₁ =>
      (r₁.2.kmalloc 512 []).bind fun r₂ =>
      (Heap.kfree { r₂.2 with bytes := ByteMem.writeBytes r₂.2.bytes r₂.1 [] } r₂.1).bind fun h₃ =>
      (h₃.kmalloc 1 []).map fun r₄ => decide (r.1 = true ∧ r₁.2.currHeapEnd = 0xC1801000 ∧ r₂.1 ≠ 0 ∧
        r₂.2.currHeapEnd = r₁.2.currHeapEnd ∧ h₃.currHeapEnd = r₁.2.currHeapEnd ∧ r₄.1 ≠ 0 ∧ r₄.1 ≠ r₁.1 ∧
        r₄.2.currHeapEnd = r₁.2.currHeapEnd)) = some true := by
    decide +kernel
  simp only [Option.bind_eq_some_iff, Option.map_eq_some_iff, decide_eq_true_eq] at hrun
  obtain ⟨⟨ok, h⟩, hinit, ⟨fatTable, heap⟩, htable, ⟨dir, h₂⟩, hdir, h₃, hfree, ⟨one, h₄⟩, hone, rfl, hend, hdirNull,
    hend₂, hend₃, honeNull, hne, hend₄⟩ := hrun
  exact ⟨h, fatTable, heap, dir, h₂, h₃, one, h₄, hinit, htable, hend, hdir, hdirNull, hend₂, hfree, hend₃, hone,
    honeNull, hne, hend₄⟩

/-- What a lookup that needs one buffer does right after boot. -/
private theorem booted_lookup (t : Paging.System) (fatTable : Nat) {v : Fat.Volume} {heap h₂ h₃ : Heap} {dir : Nat}
    {result : Except Int Fat.FileData} (hcluster : v.fs.bytesPerCluster = 512)
    (hlookup : Fat.Volume.fatGetFileData (fun _ => 0) v path = some result)
    (hlookups : Fat.fileDataLookups (fun _ => 0) v path = 1) (hdir : heap.kmalloc 512 [] = some (dir, h₂))
    (hdirNull : dir ≠ 0) (hend₂ : h₂.currHeapEnd = heap.currHeapEnd)
    (hfree : Heap.kfree { h₂ with bytes := ByteMem.writeBytes h₂.bytes dir [] } dir = some h₃)
    (hend₃ : h₃.currHeapEnd = heap.currHeapEnd) :
    BuffersFit blank (Fat.fileDataLookups blank.path v path) (booted v t.space heap fatTable) ∧
      ∃ k', (booted v t.space heap fatTable).fatGetFileData blank path = some (result, k') ∧ k'.heap = h₃ ∧
        k'.live = [fatTable] := by
  obtain ⟨hmalloc, k', hbuffer, hheap, hlive⟩ :=
    directoryBuffer_found (k := booted v t.space heap fatTable) (o := blank) (n := 0) hcluster hdir hdirNull hend₂ hfree
      hend₃
  refine ⟨?_, k', ?_, hheap, hlive⟩
  · rw [show Fat.fileDataLookups blank.path v path = 1 from hlookups]
    refine ⟨?_, ?_⟩
    · intro dir' k₁ hdir'
      rw [show (booted v t.space heap fatTable).volume.fs.bytesPerCluster = 512 from hcluster, hmalloc] at hdir'
      cases hdir'
      exact hend₂
    · intro k₁ hk₁
      rw [hbuffer] at hk₁
      cases hk₁
      exact ⟨by rw [hheap]; exact hend₃, trivial⟩
  · unfold fatGetFileData
    show ((Fat.Volume.fatGetFileData (fun _ => 0) v path).bind _) = _
    rw [hlookup, Option.bind_some]
    show ((directoryBuffers blank (Fat.fileDataLookups (fun _ => 0) v path) _).bind _) = _
    rw [hlookups, directoryBuffers, hbuffer]
    rfl

/-- The paths `/a` and `/b`. -/
def fileA : List UInt8 := [0x2f, 0x61]

def fileB : List UInt8 := [0x2f, 0x62]

/-- A disk with the empty file `/a` and without a file `/b`. -/
private theorem exists_disk : ∃ v data, Fat.fatInit (some fun _ => 0) Fat.emptyFileDisk = some (some v) ∧
    [v.fs.sectorsPerFat, v.fs.bytesPerSector, v.fs.bytesPerCluster] = [1, 512, 512] ∧
    Fat.Volume.fatGetFileData (fun _ => 0) v fileA = some (.ok data) ∧ data.fileEntry.fileSize = 0 ∧
    Fat.fileDataLookups (fun _ => 0) v fileA = 1 ∧
    Fat.Volume.fatGetFileData (fun _ => 0) v fileB = some (.error (-2)) ∧
    Fat.fileDataLookups (fun _ => 0) v fileB = 1 := by
  have hrun : ((Fat.fatInit (some fun _ => 0) Fat.emptyFileDisk).bind fun mounted => mounted.bind fun v =>
      (Fat.Volume.fatGetFileData (fun _ => 0) v fileA).bind fun resultA => resultA.toOption.bind fun data =>
      (Fat.Volume.fatGetFileData (fun _ => 0) v fileB).map fun resultB =>
        decide ([v.fs.sectorsPerFat, v.fs.bytesPerSector, v.fs.bytesPerCluster] = [1, 512, 512] ∧
          data.fileEntry.fileSize = 0 ∧ Fat.fileDataLookups (fun _ => 0) v fileA = 1 ∧
          (match resultB with | .ok _ => 0 | .error err => err) = (-2 : Int) ∧
          Fat.fileDataLookups (fun _ => 0) v fileB = 1)) = some true := by
    decide +kernel
  simp only [Option.bind_eq_some_iff, Option.map_eq_some_iff, decide_eq_true_eq] at hrun
  obtain ⟨_, hmount, v, rfl, resultA, hA, data, hdata, resultB, hB, hfs, hsize, hlookupsA, herr, hlookupsB⟩ := hrun
  cases resultA with
  | error err => cases hdata
  | ok data' =>
    cases hdata
    cases resultB with
    | ok found => cases herr
    | error err =>
      dsimp only at herr
      rw [herr] at hB
      exact ⟨v, data, hmount, hfs, hA, hsize, hlookupsA, hB, hlookupsB⟩

/-- `createProcess_noTrace` on a path without a file, right after boot. -/
theorem createProcess_noTrace_noFile : ∃ k k', createProcess blank k fileB false = some (-2, k') ∧ Fits blank k fileB ∧
    NoTrace k k' := by
  obtain ⟨t, hboot, -⟩ := Paging.exists_boot_bigMachine fun _ _ => .zero
  obtain ⟨-, hend, -⟩ := Paging.boot_heap hboot
  have hlow := (Paging.boot_sane hboot).low
  obtain ⟨h, fatTable, heap, dir, h₂, h₃, one, h₄, -, -, hheapEnd, hdir, hdirNull, hend₂, hfree, hend₃, -⟩ :=
    exists_room
  obtain ⟨v, data, -, hfs, -, -, -, hlookup, hlookups⟩ := exists_disk
  simp only [List.cons.injEq, and_true] at hfs
  obtain ⟨hbuffers, k', hdata, -, -⟩ := booted_lookup t fatTable hfs.2.2 hlookup hlookups hdir
    hdirNull hend₂ hfree hend₃
  have hfits : Fits blank (booted v t.space heap fatTable) fileB := by
    refine ⟨⟨?_, hlow 0 (by decide)⟩, hbuffers, ?_⟩
    · show heap.currHeapEnd = t.space.currHeapEnd * 4096
      rw [hheapEnd, hend]
    · intro found k₁ k₂ hfound
      rw [hdata] at hfound
      cases hfound
  have hcreate : (booted v t.space heap fatTable).createProcess blank fileB false = some (-2, k') := by
    unfold createProcess
    rw [if_neg (by exact Bool.false_ne_true), hdata]
    rfl
  exact ⟨_, k', hcreate, hfits, ((createProcess_noTrace hcreate (by decide)).2 hfits).2 (.inl ⟨-2, k', hdata⟩)⟩

/-- The creation fails, and the block of `kmalloc(1)` stays allocated. -/
theorem not_createProcess_noTrace : ∃ t h v heap fatTable one k',
    Paging.System.boot Pmm.bigMachine (fun _ _ => .zero) = some t ∧
    Heap.heapInit .static [fun _ => 0] = some (true, h) ∧
    Fat.fatInit (some fun _ => 0) Fat.emptyFileDisk = some (some v) ∧
    h.kmalloc (v.fs.sectorsPerFat * v.fs.bytesPerSector) [] = some (fatTable, heap) ∧
    (booted v t.space heap fatTable).createProcess blank fileA false = some (-1, k') ∧
    one ∈ k'.live ∧ one ∉ (booted v t.space heap fatTable).live ∧ ¬ NoTrace (booted v t.space heap fatTable) k' := by
  obtain ⟨t, hboot, -⟩ := Paging.exists_boot_bigMachine fun _ _ => .zero
  obtain ⟨h, fatTable, heap, dir, h₂, h₃, one, h₄, hinit, htable, -, hdir, hdirNull, hend₂, hfree, hend₃, hone,
    honeNull, hne, hend₄⟩ := exists_room
  obtain ⟨v, data, hmount, hfs, hlookup, hsize, hlookups, -, -⟩ := exists_disk
  simp only [List.cons.injEq, and_true] at hfs
  obtain ⟨hsectors, hbytes, hcluster⟩ := hfs
  obtain ⟨-, k₁, hdata, hheap, hlive⟩ := booted_lookup t fatTable hcluster hlookup hlookups hdir
    hdirNull hend₂ hfree hend₃
  have hone' : k₁.kmalloc 1 = some (one, k₁.handedOut one h₄ k₁.space) := by
    refine kmalloc_found (by rw [hheap]; exact hone) honeNull ?_
    rw [hheap, hend₄, hend₃]
  obtain ⟨k', hcreate, hlive'⟩ := createFromFile_empty blank (k₁.handedOut one h₄ k₁.space) data.fileEntry hsize false
  have hin : one ∈ k'.live := by
    rw [hlive']
    show one ∈ blockAt one ++ k₁.live
    rw [blockAt, if_neg honeNull]
    exact List.mem_cons_self
  have hout : one ∉ (booted v t.space heap fatTable).live := fun hmem => hne (List.mem_singleton.1 hmem)
  refine ⟨t, h, v, heap, fatTable, one, k', hboot, hinit, hmount, ?_, ?_, hin, hout,
    fun hnone => hout (hnone.blocks.mem_iff.1 hin)⟩
  · rw [hsectors, hbytes]
    exact htable
  · unfold createProcess
    rw [if_neg (by exact Bool.false_ne_true), hdata, Option.bind_eq_bind, Option.bind_some]
    dsimp only
    rw [hone']
    exact hcreate

end Kernel

end DBolOS.Proc
