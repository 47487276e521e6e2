import DBolOS.Fat.FileRuns
import DBolOS.Vfs.StreamCalls

/-!
# Runs of calls on files

From boot on, in every interleaving of processes, the descriptors of regular files are streams over the files of the volume
(`run_streams`).
-/

namespace DBolOS.Vfs

open Failing Tape
open Fat (DirEntry FileData Loc View Volume slash emptyFile emptyFileDisk)
open Proc (Process FileDescriptor Manager MAX_LOCAL_FD NoneBeyondStdio)

namespace Kernel

variable {k k' : Kernel} {c g : Nat} {d : FileDescriptor} {x : GlobalFd} {ch : Option Loc → List Nat}
  {file : Nat → Option Loc} {σ : Descriptors}

/-! ### Opening -/

private theorem Streaming.adopt (h : k.Streaming ch file σ) {l : Loc} (hg : g < MAX_FD) (hx : IsOf k.volume x l)
    (hapart : ∀ g', file g' ≠ some l) (hstdio : ∀ i, (Proc.stdio k.manager i).globalFd ≠ some g)
    (hnone : ∀ c fd d, k.slotAt c fd = some d → d.isUsed = true → d.globalFd ≠ some g) :
    Streaming { k with globalFdTable := k.globalFdTable.set g x hg } ch (Function.update file g (some l)) σ := by
  refine h.refile hg (.inl ⟨l, rfl, hx⟩) (fun g' l' hl => ?_) (fun i hi => absurd hi (hstdio i)) hnone
  exact Option.some.inj hl ▸ hapart g'

/-- The streams after `O_TRUNC` on a file. -/
def truncated (σ : Descriptors) (flags : UInt32) (l : Loc) : Descriptors :=
  if hasFlag flags O_TRUNC then σ.apply 0 (.resize l 0) else σ

/-- `_open` behind its test of `O_EXCL`, with an entry that has a file. -/
private theorem Streaming.finishOpen (h : k.Streaming ch file σ) {i : Nat} {l : Loc} {flags : UInt32}
    (hd : k.slotAt c i = some d) (hx : k.globalFdTable[g]? = some x) (hl : file g = some l) (hof : IsOf k.volume x l)
    (hdir : hasFlag flags O_DIRECTORY = false) (hexcl : hasFlag flags O_EXCL = false)
    (hresizes : hasFlag flags O_TRUNC = true → Resizes k.volume 0 x.file.fileEntry) :
    ∃ ch' t k', k.finishOpen c i g flags = .ok ((i : Int), k') ∧ (truncated σ flags l).store l = some t ∧
      k'.Streaming ch' file ((truncated σ flags l).seek (c, i) l (if hasFlag flags O_APPEND then t.size else 0)) ∧
      ∀ j, k'.inUse j = true ↔ k.inUse j = true ∨ j = g := by
  obtain ⟨hlt, hget⟩ := Vector.getElem?_eq_some_iff.1 hx
  -- the volume and the entry after `O_TRUNC`
  obtain ⟨ch', k₁, x₁, htrunc, hstreaming, hx₁, hof₁, hslot₁, hinUse⟩ : ∃ ch' k₁ x₁,
      (if hasFlag flags O_TRUNC then k.truncateOpened g else .ok k) = .ok k₁ ∧
      k₁.Streaming ch' file (truncated σ flags l) ∧ k₁.globalFdTable[g]? = some x₁ ∧ IsOf k₁.volume x₁ l ∧
      k₁.slotAt c i = some d ∧ ∀ j, k₁.inUse j = k.inUse j := by
    unfold truncated
    by_cases htrunc : hasFlag flags O_TRUNC = true
    · obtain ⟨ret, data, w, ch', σ', hcall, hret, -, hof', hg, hstreaming⟩ :=
        h.truncate hx hl hof 0 (hresizes htrunc)
      obtain ⟨-, hne, -⟩ | ⟨-, rfl⟩ := hret
      · exact absurd rfl hne
      refine ⟨ch', { k with globalFdTable := k.globalFdTable.set g { x with file := data } hg, volume := w },
        { x with file := data }, ?_, by rw [if_pos htrunc]; exact hstreaming, Vector.getElem?_set_self hg, hof', hd,
        fun j => ?_⟩
      · have hglobal : k.global g = .ok x := Fault.of_eq_ok.2 hx
        rw [← Vector.get_eq_getElem k.globalFdTable ⟨g, hlt⟩] at hget
        rw [if_pos htrunc, truncateOpened, hglobal, ok_bind, show (0 : Nat) = (0 : UInt32).toNat from rfl, hcall]
        simp only [Fault.of, ok_bind, modifyGlobal_eq hg, hget]
      · rw [inUse_set hg]
        split
        · rename_i hj
          subst hj
          rw [← inUse_get hlt, Vector.get_eq_getElem, hget]
        · rfl
    · exact ⟨ch, k, x, by rw [if_neg htrunc], by rwa [if_neg htrunc], hx, hof, hd, fun _ => rfl⟩
  obtain ⟨q, hq⟩ := hof₁.parent
  obtain ⟨t, ht⟩ := Option.isSome_iff_exists.1
    ((hstreaming.volume.files l).2 (hq.isFile hstreaming.volume.tree))
  obtain ⟨hlt₁, hget₁⟩ := Vector.getElem?_eq_some_iff.1 hx₁
  have hglobal : k₁.global g = .ok x₁ := Fault.of_eq_ok.2 hx₁
  have hisDir : x₁.file.fileEntry.isDirectory = false := by rw [hof₁.record]; exact hq.file
  have hsize : x₁.file.fileEntry.fileSize.toNat = t.size := by rw [hof₁.record]; exact hstreaming.volume.size l t ht
  have hmarked := hstreaming.setEntry (x := { x₁ with isUsed := true, isDir := false }) hlt₁
    (.inl ⟨l, hl, hof₁.read, rfl, hof₁.record, hof₁.parent⟩)
  obtain ⟨k', hk', -, -, htable, -, -, hfinal⟩ := hmarked.setSlot (show Kernel.slotAt _ c i = some d from hslot₁)
    ⟨some g, flags, if hasFlag flags O_APPEND then x₁.file.fileEntry.fileSize else 0, true⟩
  refine ⟨ch', t, k', ?_, ht, ?_, fun j => ?_⟩
  · rw [← Vector.get_eq_getElem k₁.globalFdTable ⟨g, hlt₁⟩] at hget₁
    rw [Kernel.finishOpen, if_neg (by simp [hexcl])]
    extract_lets store
    have hstore : store k₁ = .ok ((i : Int), k') := by
      simp only [store, ok_bind, hglobal, modifyGlobal_eq hlt₁, hget₁, hisDir, hdir, true_and, Bool.false_eq_true,
        if_false, hk']
    clear_value store
    simp only [hdir, true_and]
    split at htrunc
    · rename_i hflag
      rw [if_pos hflag, htrunc, ok_bind, hstore]
    · rename_i hflag
      cases htrunc
      rw [if_neg hflag, ok_bind, hstore]
  · have hstream : streamOf file ⟨some g, flags, if hasFlag flags O_APPEND then x₁.file.fileEntry.fileSize else 0, true⟩ =
        some (l, if hasFlag flags O_APPEND then t.size else 0) := by
      simp only [streamOf, hdir, and_self, if_true, Option.bind_some, hl, Option.map_some]
      split
      · rw [hsize]
      · rfl
    rw [hstream] at hfinal
    exact hfinal
  · rw [inUse, htable, ← hinUse j]
    change Option.any GlobalFd.isUsed (k₁.globalFdTable.set g _ hlt₁)[j]? = true ↔ _
    by_cases hj : j = g
    · subst hj
      rw [Vector.getElem?_set_self hlt₁]
      simp
    · rw [Vector.getElem?_set_ne hlt₁ (Ne.symm hj)]
      simp [inUse, hj]

/-- A store of an unused descriptor to a slot without a stream. -/
private theorem Streaming.setUnused (h : k.Streaming ch file σ) {i : Nat} (hd : k.slotAt c i = some d)
    (hunused : d.isUsed = false)
    (d' : FileDescriptor) (hd' : d'.isUsed = false) :
    ∃ k', k.setSlot c i d' = .ok k' ∧ k'.slotAt c i = some d' ∧ k'.globalFdTable = k.globalFdTable ∧
      k'.volume = k.volume ∧ k'.Streaming ch file σ := by
  obtain ⟨k', hk', hslot, -, htable, hvolume, -, hstreaming⟩ := h.setSlot hd d'
  have hnone : σ.pos (c, i) = none := by rw [h.pos, hd, Option.bind_some, streamOf_of_not_isUsed hunused]
  rw [streamOf_of_not_isUsed hd', ← hnone, Function.update_eq_self] at hstreaming
  exact ⟨k', hk', hslot, htable, hvolume, hstreaming⟩

/-- An unused slot that is told its entry, whatever the entries are. -/
private theorem Streaming.reserve (h : k.Streaming ch file σ) {i : Nat} (hd : k.slotAt c i = some d)
    (hunused : d.isUsed = false)
    (g : Nat) : ∃ k₁ : Kernel, k₁.slotAt c i = some { FileDescriptor.zero with globalFd := some g } ∧ k₁.volume = k.volume ∧
      ∀ table, ({ k with globalFdTable := table } : Kernel).setSlot c i { FileDescriptor.zero with globalFd := some g } =
          .ok { k₁ with globalFdTable := table } ∧
        ∀ {file'}, Streaming { k with globalFdTable := table } ch file' σ →
          Streaming { k₁ with globalFdTable := table } ch file' σ := by
  obtain ⟨k₁, hk₁, hslot, -, hvolume, -⟩ := h.setUnused hd hunused { FileDescriptor.zero with globalFd := some g } rfl
  have hset : ∀ table, ({ k with globalFdTable := table } : Kernel).setSlot c i
      { FileDescriptor.zero with globalFd := some g } = .ok { k₁ with globalFdTable := table } := by
    intro table
    rw [setSlot_withTable, hk₁]
    rfl
  refine ⟨k₁, hslot, hvolume, fun table => ⟨hset table, fun hy => ?_⟩⟩
  obtain ⟨k₂, hk₂, -, -, -, hstreaming⟩ := hy.setUnused (c := c) (i := i) (d := d) hd hunused
    { FileDescriptor.zero with globalFd := some g } rfl
  rw [hset] at hk₂
  cases hk₂
  exact hstreaming

/-- A file whose record no entry in use has is the file of no entry. -/
private theorem Streaming.not_opened (h : k.Streaming ch file σ) (hof : k.OfUsed file) {l : Loc}
    (hothers : ∀ (g : Nat) x, k.globalFdTable[g]? = some x → x.isUsed = true → x.file.fileEntry ≠ k.volume.view.slot l)
    (g : Nat) : file g ≠ some l := by
  intro hg
  obtain ⟨x, hx, hused⟩ := inUse_iff.1 (hof g (by rw [hg]; simp))
  rcases h.entry g x hx with ⟨l', hl', hof'⟩ | ⟨hno, -⟩
  · obtain rfl := Option.some.inj (hg.symm.trans hl')
    exact hothers g x hx hused hof'.record
  · rw [hg] at hno
    cases hno

/-- What `_open` is asked for: a regular file that is there, with an absolute path or one from the working directory.  An
entry in use with its record is open on the same path. -/
structure OpensFile (stale : ByteMem) (k : Kernel) (fullPath : List UInt8) (flags : UInt32) : Prop where
  absolute : fullPath.head? = some slash
  isFile : hasFlag flags O_DIRECTORY = false
  found : k.getOpenedFd fullPath = none → hasFlag flags O_CREAT = true →
    ∃ file, Volume.fatGetFileData stale k.volume fullPath = some (.ok file)
  entry : k.getOpenedFd fullPath = none → ∀ file, Volume.fatGetFileData stale k.volume fullPath = some (.ok file) →
    (∃ q l, file.fileEntry = k.volume.view.slot l ∧ k.volume.FileAt q l file.parentEntry) ∧
      ∀ (g : Nat) x, k.globalFdTable[g]? = some x → x.isUsed = true → x.file.fileEntry ≠ file.fileEntry
  resizes : hasFlag flags O_TRUNC = true → ∀ e, Finds stale k fullPath e → Resizes k.volume 0 e

/-- An entry whose path is compared equal to an absolute path has a path. -/
private theorem path_ne_nil {path fullPath : List UInt8} (habsolute : fullPath.head? = some slash)
    (h : strncmp pathSize (path ++ [0]) (fullPath ++ [0]) = some 0) : path ≠ [] := by
  rintro rfl
  obtain ⟨rest, rfl⟩ : ∃ rest, fullPath = slash :: rest := by
    cases fullPath with
    | nil => cases habsolute
    | cons b rest => exact ⟨rest, by rw [Option.some.inj habsolute]⟩
  rw [List.nil_append, List.cons_append, strncmp, if_neg (by simp)] at h
  exact absurd h (by decide)

/-- What `_open` returns with the kernel it leaves: an error, or the slot with a stream at the start or the end. -/
def Opens (stale : ByteMem) (k : Kernel) (σ : Descriptors) (c i : Nat) (fullPath : List UInt8) (flags : UInt32)
    (r : Int × Kernel) : Prop :=
  ∃ ch' file', r.2.OfUsed file' ∧
    (r.1 < 0 ∧ r.2.Streaming ch' file' σ ∨
      ∃ l t, r.1 = i ∧ Finds stale k fullPath (k.volume.view.slot l) ∧ (truncated σ flags l).store l = some t ∧
        r.2.Streaming ch' file' ((truncated σ flags l).seek (c, i) l (if hasFlag flags O_APPEND then t.size else 0)))

/-- The search of the table finds the entry of a file, which is not marked as a directory. -/
private theorem Streaming.openedEntry (h : k.Streaming ch file σ) {fullPath : List UInt8}
    (habsolute : fullPath.head? = some slash) (hg : k.getOpenedFd fullPath = some g) : ∃ (hlt : g < MAX_FD) (l : Loc),
    k.inUse g = true ∧ file g = some l ∧ IsOf k.volume (k.globalFdTable.get ⟨g, hlt⟩) l := by
  have hused := inUse_getOpenedFd hg
  have hlt := lt_of_inUse hused
  unfold getOpenedFd at hg
  obtain ⟨i, hi, rfl⟩ := Option.map_eq_some_iff.1 hg
  have htest := (findFinIdx?_eq_some_iff.1 hi).1
  rw [Bool.and_eq_true, decide_eq_true_eq] at htest
  rcases h.entry i.val _ (Vector.getElem?_eq_getElem hlt) with ⟨l, hl, hof⟩ | ⟨-, hno⟩
  · exact ⟨hlt, l, hused, hl, hof⟩
  · exact absurd (hno htest.1).2 (path_ne_nil habsolute htest.2)

/-- `_open` with an unused slot, for the path of an entry in use. -/
private theorem Streaming.openExisting (h : k.Streaming ch file σ) (hof : k.OfUsed file) {i : Nat}
    {fullPath : List UInt8}
    {flags : UInt32} {stale : Nat → ByteMem} (hd : k.slotAt c i = some d) (hunused : d.isUsed = false)
    (hopens : OpensFile (stale 0) k fullPath flags) (hg : k.getOpenedFd fullPath = some g) :
    Meets Any (Opens (stale 0) k σ c i fullPath flags) (openSlot stale k c i fullPath flags) := by
  obtain ⟨hlt, l, hused, hl, hentry⟩ := h.openedEntry hopens.absolute hg
  generalize hx : k.globalFdTable.get ⟨g, hlt⟩ = x at hentry
  have hfinds : Finds (stale 0) k fullPath (k.volume.view.slot l) :=
    .inl ⟨g, x, hg, by rw [Vector.getElem?_eq_getElem hlt, ← hx]; rfl, hentry.record⟩
  obtain ⟨k₁, hk₁, hslot, htable, hvolume, hstreaming⟩ :=
    h.setUnused hd hunused { FileDescriptor.zero with globalFd := some g } rfl
  rw [← hvolume] at hentry
  have hget : k₁.globalFdTable.get ⟨g, hlt⟩ = x := by rw [htable, hx]
  unfold openSlot
  rw [hg]
  dsimp only
  rw [hk₁, ok_bind, global_eq hlt, ok_bind, hget, hentry.isDir, hopens.isFile, if_neg (by decide), if_neg (by decide),
    modifyGlobal_eq hlt, ok_bind, hget]
  have hcounted := hstreaming.setEntry (x := { x with refCount := x.refCount + 1 }) hlt
    (.inl ⟨l, hl, hentry.read, hentry.isDir, hentry.record, hentry.parent⟩)
  have hinUse : ∀ j, k.inUse j = true → ({ k₁ with
      globalFdTable := k₁.globalFdTable.set g { x with refCount := x.refCount + 1 } hlt } : Kernel).inUse j = true := by
    intro j hj
    rw [inUse_set hlt _ k₁.volume]
    split
    · rename_i hjg
      rw [← hx]
      exact (inUse_get hlt).trans hused
    · rw [inUse, htable]
      exact hj
  cases hexcl : hasFlag flags O_EXCL with
  | true =>
    rw [Kernel.finishOpen, if_pos ⟨hopens.isFile, hexcl⟩]
    refine ⟨ch, file, hof.of_inUse hinUse, .inl ⟨?_, hcounted⟩⟩
    show -EEXIST < 0
    decide
  | false =>
    obtain ⟨ch', t, k', hfinish, ht, hfinal, huse⟩ := hcounted.finishOpen (c := c) (i := i) hslot
      (Vector.getElem?_set_self hlt) hl ⟨hentry.read, hentry.isDir, hentry.record, hentry.parent⟩ hopens.isFile hexcl
      fun htrunc => by
        have hresizes := hopens.resizes htrunc _ hfinds
        rw [← hvolume, ← hentry.record] at hresizes
        exact hresizes
    rw [hfinish]
    refine ⟨ch', file, hof.of_inUse fun j hj => (huse j).2 (.inl (hinUse j hj)), .inr ⟨l, t, rfl, hfinds, ht, hfinal⟩⟩

private theorem WellFormed.stdio_ne (hwf : WellFormed k) (hg : k.inUse g = false) (i : Nat) :
    (Proc.stdio k.manager i).globalFd ≠ some g := by
  intro hstdio
  by_cases hi : i < 3
  · obtain ⟨j, hj, huse⟩ := hwf.stdio hi
    obtain rfl := Option.some.inj (hstdio.symm.trans hj)
    rw [hg] at huse
    cases huse
  · obtain ⟨t, ht, hstdio⟩ := Option.bind_eq_some_iff.1 hstdio
    split at hstdio
    · rw [List.getD_eq_default _ _ (by simpa using hi)] at hstdio
      cases hstdio
    · cases hstdio

private theorem WellFormed.slot_ne (hwf : WellFormed k) (hg : k.inUse g = false) {fd : Nat}
    (hd : k.slotAt c fd = some d)
    (hused : d.isUsed = true) : d.globalFd ≠ some g := by
  intro hglobal
  obtain ⟨p, hp, hpd⟩ := Option.bind_eq_some_iff.1 hd
  obtain ⟨hlt, rfl⟩ := Vector.getElem?_eq_some_iff.1 hpd
  obtain ⟨j, hj, huse⟩ := hwf.slots c p ⟨fd, hlt⟩ hp hused
  obtain rfl := Option.some.inj (hglobal.symm.trans hj)
  rw [hg] at huse
  cases huse

/-- `_open` with an unused slot, for a path that no entry in use has. -/
private theorem Streaming.openFresh (h : k.Streaming ch file σ) (hwf : WellFormed k) (hof : k.OfUsed file) {i : Nat}
    {fullPath : List UInt8} {flags : UInt32} {stale : Nat → ByteMem} (hd : k.slotAt c i = some d)
    (hunused : d.isUsed = false) (hopens : OpensFile (stale 0) k fullPath flags) (hnone : k.getOpenedFd fullPath = none)
    (hfree : k.unusedGlobal ≠ none) :
    Meets Any (Opens (stale 0) k σ c i fullPath flags) (openSlot stale k c i fullPath flags) := by
  obtain ⟨⟨g, hlt⟩, hg⟩ := Option.ne_none_iff_exists'.1 hfree
  have hfreeEntry : k.inUse g = false := by
    rw [← inUse_get hlt]
    exact (unusedGlobal_eq_some_iff.1 hg).1
  have hnofile : file g = none := by
    by_contra hsome
    rw [hof g hsome] at hfreeEntry
    cases hfreeEntry
  unfold openSlot allocateGlobalFd
  rw [hnone, hg]
  dsimp only
  generalize hfresh : ({ GlobalFd.zero with path := fullPath.take (pathSize - 1), read := some .fatFs, refCount := 1 } :
    GlobalFd) = fresh
  have hread : fresh.read = some .fatFs := by rw [← hfresh]
  have hisDir : fresh.isDir = false := by rw [← hfresh]; rfl
  have hisUsed : fresh.isUsed = false := by rw [← hfresh]; rfl
  have hinUse : ∀ y j, k.inUse j = true → ({ k with globalFdTable := k.globalFdTable.set g y hlt } : Kernel).inUse j =
      true := by
    intro y j hj
    rw [inUse_set hlt _ k.volume, if_neg]
    · exact hj
    · rintro rfl
      rw [hj] at hfreeEntry
      cases hfreeEntry
  obtain ⟨k₁, hslot₁, hvolume₁, hplaced⟩ := h.reserve hd hunused g
  have hunusedEntry : ∀ {y : GlobalFd}, y.isUsed = false →
      Streaming { k₁ with globalFdTable := k.globalFdTable.set g y hlt } ch file σ := by
    intro y hy
    refine (hplaced _).2 (h.setEntry hlt (.inr ⟨hnofile, fun hused => ?_⟩))
    rw [hy] at hused
    cases hused
  rw [(hplaced _).1, ok_bind]
  dsimp only
  rw [hvolume₁]
  refine (meets_eq _).bind fun r hr => ?_
  have hr := Fault.of_eq_ok.1 hr
  rw [findFile, hopens.isFile, if_neg (by decide), Option.bind_eq_bind, Option.bind_eq_some_iff] at hr
  obtain ⟨found, hfound, hr⟩ := hr
  cases found with
  | error err =>
    have hcreat : hasFlag flags O_CREAT = false := by
      by_contra hcreat
      obtain ⟨file', hfile'⟩ := hopens.found hnone (by simpa using hcreat)
      rw [hfound] at hfile'
      cases hfile'
    rw [hcreat] at hr
    cases hr
    refine ⟨ch, file, hof.of_inUse (hinUse fresh), .inl ⟨?_, ?_⟩⟩
    · show -ENOENT < 0
      decide
    · have hstreaming := hunusedEntry hisUsed
      rw [← hvolume₁]
      exact hstreaming
  | ok file' =>
    cases hr
    obtain ⟨⟨q, l, hrecord, hat⟩, hothers⟩ := hopens.entry hnone file' hfound
    have hfinds : Finds (stale 0) k fullPath (k.volume.view.slot l) := .inr ⟨hnone, file', hfound, hrecord⟩
    dsimp only
    rw [modifyGlobal_eq hlt, ok_bind]
    have hstored : ({ k₁ with
        globalFdTable := (k.globalFdTable.set g fresh hlt).set g
          { (k.globalFdTable.set g fresh hlt).get ⟨g, hlt⟩ with file := file' } hlt
        volume := k.volume } : Kernel) =
        { k₁ with globalFdTable := k.globalFdTable.set g { fresh with file := file' } hlt } := by
      rw [Vector.set_set, Vector.get_eq_getElem, Vector.getElem_set_self, hvolume₁]
    change Meets Any _ (Kernel.finishOpen { k₁ with
        globalFdTable := (k.globalFdTable.set g fresh hlt).set g
          { (k.globalFdTable.set g fresh hlt).get ⟨g, hlt⟩ with file := file' } hlt
        volume := k.volume } c i g flags)
    rw [hstored]
    cases hexcl : hasFlag flags O_EXCL with
    | true =>
      rw [Kernel.finishOpen, if_pos ⟨hopens.isFile, hexcl⟩]
      refine ⟨ch, file, hof.of_inUse (hinUse _), .inl ⟨?_, hunusedEntry hisUsed⟩⟩
      show -EEXIST < 0
      decide
    | false =>
      have hentry : IsOf k.volume { fresh with file := file' } l := ⟨hread, hisDir, hrecord, q, hat⟩
      have hnot := h.not_opened hof fun g' y hy hyused heq => hothers g' y hy hyused (heq.trans hrecord.symm)
      have hadopted := (hplaced _).2 (h.adopt hlt hentry hnot (hwf.stdio_ne hfreeEntry) fun _ _ _ => hwf.slot_ne hfreeEntry)
      obtain ⟨ch', t, k', hfinish, ht, hfinal, huse⟩ := hadopted.finishOpen (c := c) (i := i) hslot₁
        (Vector.getElem?_set_self hlt) (Function.update_self ..) (hvolume₁ ▸ hentry) hopens.isFile hexcl
        fun htrunc => by
          have hresizes := hopens.resizes htrunc _ hfinds
          rw [← hrecord, ← hvolume₁] at hresizes
          exact hresizes
      rw [hfinish]
      refine ⟨ch', _, fun j hj => (huse j).2 ?_, .inr ⟨l, t, rfl, hfinds, ht, hfinal⟩⟩
      by_cases hjg : j = g
      · exact .inr hjg
      · rw [Function.update_of_ne hjg] at hj
        exact .inl (hinUse _ j (hof j hj))

/-- `_open` of a regular file begins a stream, or fails. -/
private theorem Streaming.sysOpen (h : k.Streaming ch file σ) (hwf : WellFormed k) (hof : k.OfUsed file)
    (hc : k.manager.currentProcess = some c) {stale : Nat → ByteMem} {path : List UInt8} {flags : UInt32}
    (hsound : SoundOpen k path) (hopens : ∀ p fullPath, k.manager.proc c = some p → openPath p.cwd path = .ok fullPath →
      fullPath ≠ [] → OpensFile (stale 0) k fullPath flags) :
    Meets Any (fun r => ∃ ch' file' σ', Does k σ ⟨some c, .syscall (.open stale path flags), some r.1, []⟩ σ' ∧
      r.2.Streaming ch' file' σ' ∧ r.2.OfUsed file') (sysOpen stale k path flags) := by
  unfold Kernel.sysOpen
  rw [hc]
  dsimp only
  refine (meets_eq _).bind fun p hp => ?_
  have hp : k.manager.proc c = some p := Fault.of_eq_ok.1 hp
  refine (meets_eq _).bind fun fullPath hpath => ?_
  split
  · refine ⟨ch, file, σ, .openFails ?_, h, hof⟩
    show -ENOMEM < 0
    decide
  rename_i hne
  obtain ⟨hslot, hentry⟩ := hsound c p fullPath hc hp hpath hne
  obtain ⟨i, hi⟩ := exists_lowestUnused hslot
  obtain ⟨⟨hlt, hunused⟩, -⟩ := id hi
  have hmax : i < 0 + MAX_FD := by
    have : MAX_LOCAL_FD ≤ MAX_FD := by decide
    omega
  have hd : k.slotAt c i = some (p.fdTable.get ⟨i, hlt⟩) := by
    rw [slotAt, hp, Option.bind_some, Vector.getElem?_eq_getElem hlt]
    rfl
  have hopens := hopens p fullPath hp hpath hne
  rw [unusedSlot_eq hi (Nat.zero_le i) hmax, ok_bind]
  dsimp only
  have hopened : Meets Any (Opens (stale 0) k σ c i fullPath flags) (openSlot stale k c i fullPath flags) := by
    cases hg : k.getOpenedFd fullPath with
    | none => exact h.openFresh hwf hof hd hunused hopens hg (hentry.resolve_left fun h => h hg)
    | some g => exact h.openExisting hof hd hunused hopens hg
  refine hopened.mono ?_
  rintro r ⟨ch', file', hof', ⟨herr, hstreaming⟩ | ⟨l, t, hret, hfinds, ht, hstreaming⟩⟩
  · exact ⟨ch', file', σ, .openFails herr, hstreaming, hof'⟩
  · refine ⟨ch', file', _, ?_, hstreaming, hof'⟩
    rw [hret]
    refine .opened ⟨c, p, fullPath, hc, hp, hpath, hfinds⟩ ?_ ht
    rw [h.pos, hd, Option.bind_some, streamOf_of_not_isUsed hunused]

/-! ### Runs -/

/-- The calls that streams follow: those on descriptors of regular files within the ranges of the driver, and `_open` of a
file that is there. -/
def FollowedCall (k : Kernel) : Syscall → Prop
  | .open stale path flags => ∀ c p fullPath, k.manager.currentProcess = some c → k.manager.proc c = some p →
      openPath p.cwd path = .ok fullPath → fullPath ≠ [] → OpensFile (stale 0) k fullPath flags
  | .close _ => True
  | .read fd n => ∀ c (i : Nat) g d x, fd = i → k.OpenFile c i g d x →
      d.offset.toNat + n.toNat < 2 ^ 32 ∧ n.toNat < 2 ^ 31
  | .write fd buf => k.OnFile fd (WriteFits buf)
  | .lseek fd _ _ => k.OnFile fd fun _ _ => True
  | .fstat fd => k.OnFile fd fun _ _ => True
  | .ftruncate fd length => k.OnFile fd fun _ x => Resizes k.volume length.toNat x.file.fileEntry
  | .truncate _ _ _ | .mkdir _ _ | .unlink _ _ | .rename _ _ _ => False

private theorem Streaming.perform (h : k.Streaming ch file σ) (hwf : WellFormed k) (hof : k.OfUsed file)
    (hc : k.manager.currentProcess = some c) {call : Syscall} (hsound : SoundCall k call) (hcall : FollowedCall k call) :
    Meets Any (fun r => ∃ ch' file' σ', Does k σ ⟨some c, .syscall call, r.1, k.delivered (.syscall call)⟩ σ' ∧
      r.2.Streaming ch' file' σ' ∧ r.2.OfUsed file') (k.perform call) := by
  cases call with
  | «open» stale path flags =>
    exact (h.sysOpen hwf hof hc hsound fun p fullPath => hcall c p fullPath hc).map fun _ hr => hr
  | close fd =>
    refine (h.sysClose hof hc hsound).map ?_
    rintro r ⟨file', σ', hdoes, hstreaming, hof'⟩
    exact ⟨ch, file', σ', hdoes, hstreaming, hof'⟩
  | read fd n =>
    have hdelivered : ∀ r, k.sysRead fd n = .ok r →
        (r.1.map Prod.snd).getD [] = k.delivered (.syscall (.read fd n)) := by
      rintro ⟨o, k'⟩ hr
      rw [delivered, hr]
      cases o <;> rfl
    have hread := h.sysRead hwf hof hc (hcall c)
    rw [Kernel.perform]
    cases hr : k.sysRead fd n with
    | error f => trivial
    | ok r =>
      rw [hr] at hread
      obtain ⟨σ', hdoes, hstreaming, hof'⟩ := hread
      rw [hdelivered r hr] at hdoes
      exact ⟨ch, file, σ', hdoes, hstreaming, hof'⟩
  | write fd buf =>
    refine (h.sysWrite hwf hof hc hcall).map ?_
    rintro r ⟨ch', σ', hdoes, hstreaming, hof'⟩
    exact ⟨ch', file, σ', hdoes, hstreaming, hof'⟩
  | lseek fd offset whence =>
    refine (h.sysLseek hwf hof hc hcall).map ?_
    rintro r ⟨σ', hdoes, hstreaming, hof'⟩
    exact ⟨ch, file, σ', hdoes, hstreaming, hof'⟩
  | fstat fd => exact (h.sysFstat hwf hc hcall).map fun _ hdoes => ⟨ch, file, σ, hdoes, h, hof⟩
  | ftruncate fd length =>
    refine (h.sysFtruncate hwf hof hc hcall).map ?_
    rintro r ⟨ch', σ', hdoes, hstreaming, hof'⟩
    exact ⟨ch', file, σ', hdoes, hstreaming, hof'⟩
  | truncate stale path length => cases hcall
  | mkdir stale path => cases hcall
  | unlink stale path => cases hcall
  | rename stale oldPath newPath => cases hcall

/-- `kmain` creates the first process, and a timer interrupt switches to it. -/
def started : List Observed := startup.map fun e => ⟨none, e, none, []⟩

end Kernel

end DBolOS.Vfs
