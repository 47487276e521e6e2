import DBolOS.Fat.FileFrames
import DBolOS.Vfs.Access
import DBolOS.Vfs.Opening

/-!
# Descriptors as streams

The descriptors of regular files are positions in the tapes that the volume holds.  `Streaming` relates them: each entry of
the table of open files has the record of one file, no two have the same, and a used descriptor stands for its offset in the
file of its entry.
-/

namespace DBolOS.Vfs

open Failing Tape
open Fat (DirEntry FileData Loc View Volume)
open Proc (Process FileDescriptor Manager MAX_LOCAL_FD NoneBeyondStdio)

/-- Descriptors of processes as positions in files. -/
abbrev Descriptors := Streams (Nat × Nat) Loc UInt8

namespace Kernel

variable {k k' : Kernel} {c fd g : Nat} {d d' : FileDescriptor} {x x' : GlobalFd} {v w : Volume}
  {ch ch' : Option Loc → List Nat} {file : Nat → Option Loc} {σ : Descriptors} {q : Option Loc} {l : Loc} {e : DirEntry}

/-- The position that a descriptor stands for, with `file g` the file of entry `g`. -/
def streamOf (file : Nat → Option Loc) (d : FileDescriptor) : Option (Loc × Nat) :=
  if d.isUsed ∧ hasFlag d.flags O_DIRECTORY = false then
    ((d.globalFd.bind file).map fun l => (l, d.offset.toNat))
  else none

/-- The entry is that of the file: it has the record that is stored, and the directory of the file. -/
structure IsOf (v : Volume) (x : GlobalFd) (l : Loc) : Prop where
  read : x.read = some .fatFs
  isDir : x.isDir = false
  record : x.file.fileEntry = v.view.slot l
  parent : ∃ q, v.FileAt q l x.file.parentEntry

/-- An entry without a file is not in use, or it is a device. -/
def NoFile (x : GlobalFd) : Prop := x.isUsed = true → x.read ≠ some .fatFs ∧ x.path = []

/-- The files of the entries that are in use. -/
def OfUsed (k : Kernel) (file : Nat → Option Loc) : Prop := ∀ g, file g ≠ none → k.inUse g = true

structure Streaming (k : Kernel) (ch : Option Loc → List Nat) (file : Nat → Option Loc) (σ : Descriptors) : Prop where
  sound : k.volume.fs.Sound
  volume : k.volume.Refines ch σ.store
  entry : ∀ g x, k.globalFdTable[g]? = some x → (∃ l, file g = some l ∧ IsOf k.volume x l) ∨ file g = none ∧ NoFile x
  apart : ∀ g g' l, file g = some l → file g' = some l → g = g'
  stdio : ∀ i g, (Proc.stdio k.manager i).globalFd = some g → file g = none
  pos : ∀ c fd, σ.pos (c, fd) = (k.slotAt c fd).bind (streamOf file)

theorem streamOf_of_not_isUsed (h : d.isUsed = false) : streamOf file d = none := by simp [streamOf, h]

theorem streamOf_eq_some {o : Nat} (h : streamOf file d = some (l, o)) : d.isUsed = true ∧
    hasFlag d.flags O_DIRECTORY = false ∧ (∃ g, d.globalFd = some g ∧ file g = some l) ∧ o = d.offset.toNat := by
  unfold streamOf at h
  split at h
  · rename_i hused
    obtain ⟨l', hl', heq⟩ := Option.map_eq_some_iff.1 h
    obtain ⟨g, hg, hfile⟩ := Option.bind_eq_some_iff.1 hl'
    obtain ⟨rfl, rfl⟩ := Prod.mk.inj heq
    exact ⟨hused.1, hused.2, ⟨g, hg, hfile⟩, rfl⟩
  · cases h

/-- A descriptor looks at the file of its own entry alone. -/
private theorem streamOf_congr {file' : Nat → Option Loc}
    (h : ∀ g, d.isUsed = true → d.globalFd = some g → file' g = file g) :
    streamOf file' d = streamOf file d := by
  rw [streamOf, streamOf]
  split
  · rename_i hused
    cases hglobal : d.globalFd with
    | none => rfl
    | some g => rw [Option.bind_some, Option.bind_some, h g hused.1 hglobal]
  · rfl

theorem OfUsed.of_inUse (h : k.OfUsed file) (hinUse : ∀ j, k.inUse j = true → k'.inUse j = true) : k'.OfUsed file :=
  fun j hj => hinUse j (h j hj)

theorem OfUsed.of_table (h : k.OfUsed file) (htable : k'.globalFdTable = k.globalFdTable) : k'.OfUsed file :=
  h.of_inUse fun j hj => by rwa [inUse, htable]

theorem OfUsed.set (h : k.OfUsed file) (hg : g < MAX_FD) (x : GlobalFd) (w : Volume)
    (hx : k.inUse g = true → x.isUsed = true) :
    OfUsed { k with globalFdTable := k.globalFdTable.set g x hg, volume := w } file := by
  refine h.of_inUse fun j hj => ?_
  rw [inUse_set hg x w]
  split
  · rename_i hjg
    subst hjg
    exact hx hj
  · exact hj

/-- The same streams of the terminal. -/
theorem stdio_congr {m m' : Manager}
    (hterminals : m'.terminals.map Proc.Terminal.streams = m.terminals.map Proc.Terminal.streams)
    (hid : m'.activeTerminalId = m.activeTerminalId) (i : Nat) : Proc.stdio m' i = Proc.stdio m i := by
  have hstreams := Proc.activeTerminal_streams hterminals hid
  unfold Proc.stdio
  rw [hid]
  cases ht : m.activeTerminal with
  | none =>
    rw [ht, Option.map_none, Option.map_eq_none_iff] at hstreams
    rw [hstreams]
  | some t =>
    rw [ht, Option.map_some, Option.map_eq_some_iff] at hstreams
    obtain ⟨t', ht', heq⟩ := hstreams
    simp only [Proc.Terminal.streams, Prod.mk.injEq] at heq
    obtain ⟨hid', hin, hout, herr⟩ := heq
    rw [ht']
    simp only [Option.bind_eq_bind, Option.bind_some, hid', hin, hout, herr]

namespace Streaming

/-- The descriptor of an open file is a position in one of the tapes. -/
theorem openFile (h : k.Streaming ch file σ) (hwf : WellFormed k) (hf : k.OpenFile c fd g d x) : ∃ l q t,
    file g = some l ∧ IsOf k.volume x l ∧ k.volume.FileAt q l x.file.parentEntry ∧ σ.store l = some t ∧
      σ.pos (c, fd) = some (l, d.offset.toNat) := by
  obtain ⟨hg, hused⟩ : k.inUse g = true ∧ x.isUsed = true := by
    obtain ⟨p, hp, hslot⟩ := Option.bind_eq_some_iff.1 hf.slot
    obtain ⟨hlt, rfl⟩ := Vector.getElem?_eq_some_iff.1 hslot
    obtain ⟨g', hg', huse⟩ := hwf.slots c p ⟨fd, hlt⟩ hp hf.used
    obtain rfl := Option.some.inj (hf.global.symm.trans hg')
    obtain ⟨x', hx', hxused⟩ := inUse_iff.1 huse
    obtain rfl := Option.some.inj (hf.entry.symm.trans hx')
    exact ⟨huse, hxused⟩
  rcases h.entry g x hf.entry with ⟨l, hl, hof⟩ | ⟨-, hno⟩
  · obtain ⟨q, hq⟩ := hof.parent
    obtain ⟨t, ht⟩ := Option.isSome_iff_exists.1 ((h.volume.files l).2 (hq.isFile h.volume.tree))
    refine ⟨l, q, t, hl, hof, hq, ht, ?_⟩
    rw [h.pos, hf.slot]
    simp [streamOf, hf.used, hf.file, hf.global, hl]
  · exact absurd hf.read (hno hused).1

/-! ### Stores -/

/-- A store to a slot. -/
theorem setSlot (h : k.Streaming ch file σ) (hd : k.slotAt c fd = some d) (d' : FileDescriptor) :
    ∃ k', k.setSlot c fd d' = .ok k' ∧ k'.slotAt c fd = some d' ∧ Touches k k' c fd ∧
      k'.globalFdTable = k.globalFdTable ∧ k'.volume = k.volume ∧
      k'.manager.currentProcess = k.manager.currentProcess ∧
      k'.Streaming ch file { σ with pos := Function.update σ.pos (c, fd) (streamOf file d') } := by
  obtain ⟨k', hk', hslot, htouches, htable, hvolume, hcurrent⟩ := setSlot_eq hd d'
  have hset := (setSlot_meets k c (slotAt_lt hd) d').value hk'
  refine ⟨k', hk', hslot, htouches, htable, hvolume, hcurrent, ?_⟩
  refine ⟨hvolume ▸ h.sound, hvolume ▸ h.volume, fun g x hx => ?_, h.apart, fun i g hi => ?_, fun c' fd' => ?_⟩
  · rw [htable] at hx
    rw [hvolume]
    exact h.entry g x hx
  · rw [stdio_congr (by rw [hset.terminals]) hset.terminalId] at hi
    exact h.stdio i g hi
  · by_cases hat : c' = c ∧ fd' = fd
    · obtain ⟨rfl, rfl⟩ := hat
      rw [hslot]
      exact Function.update_self ..
    · have hne : (c', fd') ≠ (c, fd) := fun heq => hat (Prod.mk.inj heq)
      rw [htouches c' fd' hat, ← h.pos]
      exact Function.update_of_ne hne ..

/-- A store to an entry that leaves its file and record. -/
theorem setEntry (h : k.Streaming ch file σ) (hg : g < MAX_FD)
    (hx : (∃ l, file g = some l ∧ IsOf k.volume x l) ∨ file g = none ∧ NoFile x) :
    Streaming { k with globalFdTable := k.globalFdTable.set g x hg } ch file σ := by
  refine ⟨h.sound, h.volume, fun j y hy => ?_, h.apart, h.stdio, h.pos⟩
  change (k.globalFdTable.set g x hg)[j]? = some y at hy
  by_cases hj : j = g
  · subst hj
    rw [Vector.getElem?_set_self hg] at hy
    exact Option.some.inj hy ▸ hx
  · rw [Vector.getElem?_set_ne hg (Ne.symm hj)] at hy
    exact h.entry j y hy

/-- A store to an entry that no used descriptor refers to may give it another file, or none. -/
theorem refile (h : k.Streaming ch file σ) {o : Option Loc} (hg : g < MAX_FD)
    (hx : (∃ l, o = some l ∧ IsOf k.volume x l) ∨ o = none ∧ NoFile x) (hapart : ∀ g' l, o = some l → file g' ≠ some l)
    (hstdio : ∀ i, (Proc.stdio k.manager i).globalFd = some g → o = none)
    (hunused : ∀ c fd d, k.slotAt c fd = some d → d.isUsed = true → d.globalFd ≠ some g) :
    Streaming { k with globalFdTable := k.globalFdTable.set g x hg } ch (Function.update file g o) σ := by
  refine ⟨h.sound, h.volume, fun j y hy => ?_, fun j j' l hj hj' => ?_, fun i j hi => ?_, fun c fd => ?_⟩
  · change (k.globalFdTable.set g x hg)[j]? = some y at hy
    by_cases hjg : j = g
    · subst hjg
      rw [Vector.getElem?_set_self hg] at hy
      rw [Function.update_self]
      exact Option.some.inj hy ▸ hx
    · rw [Vector.getElem?_set_ne hg (Ne.symm hjg)] at hy
      rw [Function.update_of_ne hjg]
      exact h.entry j y hy
  · rw [Function.update_apply] at hj hj'
    split at hj <;> split at hj'
    · rename_i hjg hjg'
      rw [hjg, hjg']
    · exact absurd hj' (hapart j' l hj)
    · exact absurd hj (hapart j l hj')
    · exact h.apart j j' l hj hj'
  · by_cases hjg : j = g
    · subst hjg
      rw [Function.update_self]
      exact hstdio i hi
    · rw [Function.update_of_ne hjg]
      exact h.stdio i j hi
  · rw [h.pos]
    change (k.slotAt c fd).bind _ = (k.slotAt c fd).bind _
    cases hd : k.slotAt c fd with
    | none => rfl
    | some d =>
      have hother : ∀ j, d.isUsed = true → d.globalFd = some j → Function.update file g o j = file j := by
        intro j hused hglobal
        refine Function.update_of_ne ?_ ..
        rintro rfl
        exact hunused c fd d hd hused hglobal
      rw [Option.bind_some, Option.bind_some, streamOf_congr hother]

/-- A rewritten record, in the volume and in the entry of its file. -/
theorem rewrites (h : k.Streaming ch file σ) (hw : k.volume.RewritesRecord w l e) (hfs : w.fs = k.volume.fs)
    {store : Store Loc UInt8} (href : w.Refines ch' store) (hfile : file g = some l) (hg : g < MAX_FD)
    (hx : k.globalFdTable.get ⟨g, hg⟩ = x) (hof : IsOf k.volume x l) {data : FileData}
    (hdata : data = ⟨e, x.file.parentEntry⟩) :
    Streaming { k with globalFdTable := k.globalFdTable.set g { x with file := data } hg, volume := w } ch' file
      { σ with store } := by
  subst hdata
  refine ⟨hfs ▸ h.sound, href, fun j y hy => ?_, h.apart, h.stdio, h.pos⟩
  change (k.globalFdTable.set g _ hg)[j]? = some y at hy
  by_cases hj : j = g
  · subst hj
    rw [Vector.getElem?_set_self hg] at hy
    obtain rfl := Option.some.inj hy
    obtain ⟨q, hq⟩ := hof.parent
    exact .inl ⟨l, hfile, hof.read, hof.isDir, hw.slot.symm, q, hw.fileAt q l _ hq⟩
  · rw [Vector.getElem?_set_ne hg (Ne.symm hj)] at hy
    rcases h.entry j y hy with ⟨l', hl', hof'⟩ | hno
    · obtain ⟨q, hq⟩ := hof'.parent
      have hne : l' ≠ l := by
        rintro rfl
        exact hj (h.apart j g l' hl' hfile)
      exact .inl ⟨l', hl', hof'.read, hof'.isDir, hof'.record.trans (hw.others q l' _ hq hne).symm, q, hw.fileAt q l' _ hq⟩
    · exact .inr hno

end Streaming

end Kernel

end DBolOS.Vfs
