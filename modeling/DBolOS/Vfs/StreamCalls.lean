import DBolOS.Lib.Run
import DBolOS.Vfs.Streams

/-!
# Calls on streams

What the calls on a descriptor deliver, return and move: what the stream of the descriptor does, and no other one is moved.
A seek goes to the start, to the end or by a difference, `_write` returns `EAGAIN` where it fails, and what a file held
behind its end comes to light when it grows.
-/

namespace DBolOS.Vfs

open Failing Tape
open Fat (DirEntry FileData Loc View Volume slash)
open Proc (Process FileDescriptor Manager MAX_LOCAL_FD NoneBeyondStdio)

namespace Kernel

/-! ### What is observed -/

/-- An entry to the kernel, with the process that was running, what it returned and what it delivered. -/
structure Observed where
  process : Option Nat
  event : Event
  ret : Option Int
  bytes : List UInt8

def returned (k : Kernel) : Event → Option Int
  | .syscall call =>
    match k.perform call with
    | .ok (ret, _) => ret
    | .error _ => none
  | .manager _ => none

/-- The bytes that `_read` stores in the buffer of the process. -/
def delivered (k : Kernel) : Event → List UInt8
  | .syscall (.read fd count) =>
    match k.sysRead fd count with
    | .ok (some (_, bytes), _) => bytes
    | _ => []
  | _ => []

/-- Where a seek goes: the offset asked for is looked at with `SEEK_CUR` alone. -/
def seekTarget (position size : Nat) (offset : Int) : Whence → Option Nat
  | .set => some 0
  | .cur => some ((position + offset) % 2 ^ 32).toNat
  | .end => some size
  | .other => none

/-- The record that `_open` comes to for a path: that of the entry of the path, or the one that is looked up. -/
def Finds (stale : ByteMem) (k : Kernel) (fullPath : List UInt8) (e : DirEntry) : Prop :=
  (∃ g x, k.getOpenedFd fullPath = some g ∧ k.globalFdTable[g]? = some x ∧ x.file.fileEntry = e) ∨
    k.getOpenedFd fullPath = none ∧
      ∃ file, Volume.fatGetFileData stale k.volume fullPath = some (.ok file) ∧ file.fileEntry = e

/-- `path` leads to the file in slot `l`. -/
def Names (stale : ByteMem) (k : Kernel) (path : List UInt8) (l : Loc) : Prop :=
  ∃ c p fullPath, k.manager.currentProcess = some c ∧ k.manager.proc c = some p ∧ openPath p.cwd path = .ok fullPath ∧
    Finds stale k fullPath (k.volume.view.slot l)

/-- The descriptor of a call. -/
def Syscall.descriptor : Syscall → Option Int
  | .read fd _ => some fd
  | .write fd _ => some fd
  | .lseek fd _ _ => some fd
  | .fstat fd => some fd
  | .ftruncate fd _ => some fd
  | .close fd => some fd
  | _ => none

/-- The descriptor is one of the first three, or that of no file. -/
def NoStream (σ : Descriptors) (c : Nat) (fd : Int) : Prop := fd < 3 ∨ σ.pos (c, fd.toNat) = none

/-- The process has its streams, or it is gone. -/
def Remains (σ σ' : Descriptors) (c : Nat) : Prop :=
  (∀ fd, σ'.pos (c, fd) = σ.pos (c, fd)) ∨ ∀ fd, σ'.pos (c, fd) = none

/-- What an observed entry does to the streams. -/
inductive Does (k : Kernel) (σ : Descriptors) : Observed → Descriptors → Prop
  | read {c fd : Nat} {n : UInt32} {l : Loc} {o : Nat} {t : Tape UInt8} (hpos : σ.pos (c, fd) = some (l, o))
      (ht : σ.store l = some t) :
      Does k σ ⟨some c, .syscall (.read fd n), some (t.read o n.toNat).length, t.read o n.toNat⟩
        (σ.seek (c, fd) l (o + (t.read o n.toNat).length))
  | write {c fd : Nat} {buf : List UInt8} {l : Loc} {o : Nat} (hpos : σ.pos (c, fd) = some (l, o)) :
      Does k σ ⟨some c, .syscall (.write fd buf), some buf.length, []⟩
        ((σ.apply 0 (.write l o buf)).seek (c, fd) l (o + buf.length))
  | writeFails {c fd : Nat} {buf : List UInt8} {l : Loc} {o : Nat} (hpos : σ.pos (c, fd) = some (l, o)) :
      Does k σ ⟨some c, .syscall (.write fd buf), some EAGAIN, []⟩ σ
  | seek {c fd : Nat} {offset : Int} {whence : Whence} {l : Loc} {o n : Nat} {t : Tape UInt8}
      (hpos : σ.pos (c, fd) = some (l, o)) (ht : σ.store l = some t)
      (hn : seekTarget o t.size offset whence = some n) (hlt : n < 2 ^ 31) :
      Does k σ ⟨some c, .syscall (.lseek fd offset whence), some n, []⟩ (σ.seek (c, fd) l n)
  | seekFails {c fd : Nat} {offset : Int} {whence : Whence} {l : Loc} {o : Nat} {t : Tape UInt8}
      (hpos : σ.pos (c, fd) = some (l, o)) (ht : σ.store l = some t)
      (hfar : ∀ n, seekTarget o t.size offset whence = some n → 2 ^ 31 ≤ n) :
      Does k σ ⟨some c, .syscall (.lseek fd offset whence), some (-EINVAL), []⟩ σ
  | fstat {c fd : Nat} {l : Loc} {o : Nat} (hpos : σ.pos (c, fd) = some (l, o)) :
      Does k σ ⟨some c, .syscall (.fstat fd), some 0, []⟩ σ
  | resize {c fd : Nat} {length : UInt32} {l : Loc} {o : Nat} (hpos : σ.pos (c, fd) = some (l, o)) :
      Does k σ ⟨some c, .syscall (.ftruncate fd length), some 0, []⟩ (σ.apply 0 (.resize l length.toNat))
  | resizeFails {c fd : Nat} {length : UInt32} {l : Loc} {o : Nat} (hpos : σ.pos (c, fd) = some (l, o)) :
      Does k σ ⟨some c, .syscall (.ftruncate fd length), some (-1), []⟩ σ
  | close {c fd : Nat} : Does k σ ⟨some c, .syscall (.close fd), some 0, []⟩ (σ.close (c, fd))
  | opened {c fd : Nat} {stale : Nat → ByteMem} {path : List UInt8} {flags : UInt32} {l : Loc} {t : Tape UInt8}
      (hnames : Names (stale 0) k path l) (hfree : σ.pos (c, fd) = none)
      (ht : (if hasFlag flags O_TRUNC then σ.apply 0 (.resize l 0) else σ).store l = some t) :
      Does k σ ⟨some c, .syscall (.open stale path flags), some fd, []⟩
        ((if hasFlag flags O_TRUNC then σ.apply 0 (.resize l 0) else σ).seek (c, fd) l
          (if hasFlag flags O_APPEND then t.size else 0))
  | openFails {c : Nat} {stale : Nat → ByteMem} {path : List UInt8} {flags : UInt32} {err : Int} (herr : err < 0) :
      Does k σ ⟨some c, .syscall (.open stale path flags), some err, []⟩ σ
  | idle {c : Nat} {fd : Int} {call : Syscall} {ret : Option Int} (hfd : call.descriptor = some fd)
      (hno : NoStream σ c fd) : Does k σ ⟨some c, .syscall call, ret, []⟩ σ
  | manager {c : Option Nat} {e : Manager.Event} {σ' : Descriptors} (hstore : σ'.store = σ.store)
      (hpos : ∀ c, Remains σ σ' c) :
      Does k σ ⟨c, .manager e, none, []⟩ σ'

/-! ### Entries to the process manager -/

variable {k k' : Kernel} {c g : Nat} {fd : Int} {d : FileDescriptor} {x : GlobalFd} {m : Manager}
  {ch : Option Loc → List Nat} {file : Nat → Option Loc} {σ : Descriptors} {refused : List Int} {err : Int}

private theorem slotAt_of_fdTable {p p' : Process} (hp : k.manager.proc c = some p) (hp' : m.proc c = some p')
    (h : p'.fdTable = p.fdTable) (fd : Nat) : ({ k with manager := m } : Kernel).slotAt c fd = k.slotAt c fd := by
  rw [slotAt, slotAt, hp, hp', Option.bind_some, Option.bind_some, h]

/-- The streams of the processes that are left. -/
def remaining (σ : Descriptors) (file : Nat → Option Loc) (k : Kernel) : Descriptors :=
  { σ with pos := fun p => (k.slotAt p.1 p.2).bind (streamOf file) }

private theorem Streaming.remains (h : k.Streaming ch file σ)
    (hproc : ∀ q, m.proc c = some q → ∃ p, k.manager.proc c = some p ∧ q.fdTable = p.fdTable) :
    Remains σ (remaining σ file { k with manager := m }) c := by
  cases hc : m.proc c with
  | none =>
    refine .inr fun fd => ?_
    have hslot : ({ k with manager := m } : Kernel).slotAt c fd = none := by rw [slotAt, hc, Option.bind_none]
    simp only [remaining, hslot, Option.bind_none]
  | some q =>
    refine .inl fun fd => ?_
    obtain ⟨p, hp, heq⟩ := hproc q hc
    rw [h.pos, ← slotAt_of_fdTable hp hc heq]
    rfl

private theorem Streaming.ofManager (h : k.Streaming ch file σ)
    (hterminals : m.terminals.map Proc.Terminal.streams = k.manager.terminals.map Proc.Terminal.streams)
    (hid : m.activeTerminalId = k.manager.activeTerminalId) :
    Streaming { k with manager := m } ch file (remaining σ file { k with manager := m }) := by
  refine ⟨h.sound, h.volume, h.entry, h.apart, fun i g hi => ?_, fun c fd => rfl⟩
  rw [stdio_congr hterminals hid] at hi
  exact h.stdio i g hi

theorem Streaming.keeps (h : k.Streaming ch file σ) (hm : Proc.Keeps k.manager m) :
    Streaming { k with manager := m } ch file (remaining σ file { k with manager := m }) ∧
      ∀ c, Remains σ (remaining σ file { k with manager := m }) c :=
  ⟨h.ofManager hm.terminals hm.terminalId, fun c => h.remains (hm.proc c)⟩

private theorem slotAt_of_read {o : Proc.Outcome} (hm : k.manager.step .read = some (m, o)) (c fd : Nat) :
    ({ k with manager := m } : Kernel).slotAt c fd = k.slotAt c fd := by
  obtain ⟨⟨a, waits⟩, -, hm⟩ := Option.bind_eq_some_iff.1 hm
  dsimp only at hm
  split at hm
  · cases hm
  · obtain ⟨m₁, hm₁, heq⟩ := Option.map_eq_some_iff.1 hm
    cases heq
    obtain ⟨n, hn, rfl⟩ := Proc.modify_eq hm₁
    rw [slotAt, slotAt, Manager.proc, Manager.proc, Proc.node_insert]
    split
    · rename_i hca
      rw [hca, hn]
      rfl
    · rfl

/-- A new process has no stream. -/
theorem Streaming.adds (h : k.Streaming ch file σ) {a : Nat} {stale p : Process}
    (hp : k.manager.newProcess stale = some p) (hm : Proc.Adds a p.fdTable k.manager m)
    (hstale : NoneBeyondStdio stale.fdTable) :
    Streaming { k with manager := m } ch file (remaining σ file { k with manager := m }) ∧
      ∀ c, Remains σ (remaining σ file { k with manager := m }) c := by
  refine ⟨h.ofManager hm.terminals hm.terminalId, fun c => ?_⟩
  by_cases hca : c = a
  · subst hca
    obtain ⟨q, hq, heq⟩ := hm.new
    refine .inr fun fd => ?_
    simp only [remaining, slotAt, hq, Option.bind_some, heq]
    cases hd : p.fdTable[fd]? with
    | none => rfl
    | some d =>
      obtain ⟨hlt, rfl⟩ := Vector.getElem?_eq_some_iff.1 hd
      have hget := Proc.newProcess_get hp ⟨fd, hlt⟩
      rw [Vector.get_eq_getElem] at hget
      dsimp only at hget
      rw [Option.bind_some, hget]
      split
      · -- a standard stream
        unfold streamOf
        split
        · rw [Option.map_eq_none_iff, Option.bind_eq_none_iff]
          exact h.stdio fd
        · rfl
      · exact streamOf_of_not_isUsed (hstale ⟨fd, hlt⟩ (by simp only; omega))
  · exact h.remains fun q hq => hm.proc c q hq hca

/-! ### Calls on a descriptor -/

/-- Where the checks of a call refuse a descriptor there is no stream. -/
private theorem Streaming.noStream_of_refused (h : k.Streaming ch file σ) (hc : k.manager.currentProcess = some c)
    (hrefused : ∀ i ∈ refused, i < 3) (herr : k.usedSlot refused fd = .ok (.error err)) : NoStream σ c fd := by
  by_contra hno
  simp only [NoStream, not_or, not_lt] at hno
  obtain ⟨⟨l, o⟩, hpos⟩ := Option.ne_none_iff_exists'.1 hno.2
  rw [h.pos, Option.bind_eq_some_iff] at hpos
  obtain ⟨d, hd, hstream⟩ := hpos
  have hfd : ((fd.toNat : Nat) : Int) = fd := Int.toNat_of_nonneg (by omega)
  have hok : k.usedSlot refused (fd.toNat : Int) = .ok (.ok (c, d)) := by
    refine usedSlot_eq hc hd (streamOf_eq_some hstream).1 ?_
    rw [hfd]
    exact fun hmem => absurd (hrefused fd hmem) (by omega)
  rw [hfd, herr] at hok
  cases hok

private theorem streamOf_setOffset {l : Loc} {o : Nat} (h : streamOf file d = some (l, o)) (offset : UInt32) :
    streamOf file { d with offset } = some (l, offset.toNat) := by
  obtain ⟨hused, hdir, ⟨g, hg, hfile⟩, -⟩ := streamOf_eq_some h
  simp [streamOf, hused, hdir, hg, hfile]

private theorem Streaming.setOffset (h : k.Streaming ch file σ) {i : Nat} {l : Loc} {o : Nat}
    (hd : k.slotAt c i = some d)
    (hpos : σ.pos (c, i) = some (l, o)) (offset : UInt32) :
    ∃ k', k.setSlot c i { d with offset } = .ok k' ∧ k'.globalFdTable = k.globalFdTable ∧
      k'.Streaming ch file (σ.seek (c, i) l offset.toNat) := by
  obtain ⟨k', hk', -, -, htable, -, -, hstreaming⟩ := h.setSlot hd { d with offset }
  rw [h.pos, hd] at hpos
  rw [streamOf_setOffset hpos] at hstreaming
  exact ⟨k', hk', htable, hstreaming⟩

/-- The checks of a call refuse the descriptor, and there is no stream, or find its slot. -/
private theorem Streaming.usedSlot (h : k.Streaming ch file σ) (hc : k.manager.currentProcess = some c)
    (hrefused : ∀ i ∈ refused, i < 3) : Meets Any (fun r => (∃ err, r = .error err) ∧ NoStream σ c fd ∨
      ∃ (i : Nat) (d : FileDescriptor), fd = i ∧ r = .ok (c, d) ∧ k.slotAt c i = some d ∧ d.isUsed = true ∧
        (i : Int) ∉ refused) (k.usedSlot refused fd) := by
  refine meets_of_ok fun r hr => ?_
  cases r with
  | error err => exact .inl ⟨⟨err, rfl⟩, h.noStream_of_refused hc hrefused hr⟩
  | ok slot =>
    obtain ⟨c', d⟩ := slot
    obtain ⟨hc', hd, hused, hfd⟩ := (usedSlot_meets_slotAt k refused fd).value hr c' d rfl
    obtain rfl := Option.some.inj (hc.symm.trans hc')
    refine .inr ⟨fd.toNat, d, (Int.toNat_of_nonneg hfd).symm, rfl, hd, hused, fun hmem => ?_⟩
    rw [Int.toNat_of_nonneg hfd] at hmem
    simp [Kernel.usedSlot, hc, hmem] at hr

private theorem three_le {i : Nat} (h : (i : Int) ∉ ([0, 1, 2] : List Int)) : 3 ≤ i := by
  simp only [List.mem_cons, List.not_mem_nil, or_false, not_or] at h
  omega

private theorem globalOf_meets_entry (k : Kernel) (d : FileDescriptor) :
    Meets Any (fun r => d.globalFd = some r.1 ∧ k.globalFdTable[r.1]? = some r.2) (k.globalOf d) := by
  unfold globalOf
  refine (meets_eq _).bind fun g hg => ?_
  refine (meets_eq _).bind fun x hx => ?_
  exact ⟨Fault.of_eq_ok.1 hg, Fault.of_eq_ok.1 hx⟩

private theorem Streaming.pos_eq_none (h : k.Streaming ch file σ) {i : Nat} (hd : k.slotAt c i = some d)
    (hno : streamOf file d = none) : NoStream σ c (i : Int) :=
  .inr (by rw [Int.toNat_natCast, h.pos, hd]; exact hno)

/-- `_read` delivers what its stream reads, or there is no stream. -/
theorem Streaming.sysRead (h : k.Streaming ch file σ) (hwf : WellFormed k) (hof : k.OfUsed file)
    (hc : k.manager.currentProcess = some c) {n : UInt32} (hfits : ∀ (i : Nat) g d x, fd = i → k.OpenFile c i g d x →
      d.offset.toNat + n.toNat < 2 ^ 32 ∧ n.toNat < 2 ^ 31) :
    Meets Any (fun r => ∃ σ', Does k σ ⟨some c, .syscall (.read fd n), r.1.map Prod.fst, (r.1.map Prod.snd).getD []⟩ σ' ∧
      r.2.Streaming ch file σ' ∧ r.2.OfUsed file) (k.sysRead fd n) := by
  have hidle : ∀ ret, NoStream σ c fd → Does k σ ⟨some c, .syscall (.read fd n), ret, []⟩ σ := fun ret => .idle rfl
  unfold Kernel.sysRead
  refine (h.usedSlot hc (by simp)).bind ?_
  rintro r (⟨⟨err, rfl⟩, hno⟩ | ⟨i, d, rfl, rfl, hd, hused, -⟩)
  · exact ⟨σ, hidle _ hno, h, hof⟩
  dsimp only
  split
  · rename_i hdir
    exact ⟨σ, hidle _ (h.pos_eq_none hd (by simp [streamOf, hdir])), h, hof⟩
  rename_i hdir
  rw [hasFlag_rdonly, if_neg (by decide)]
  split
  · rename_i hnone
    exact ⟨σ, hidle _ (h.pos_eq_none hd (by simp [streamOf, hnone])), h, hof⟩
  refine (globalOf_meets_entry k d).bind ?_
  rintro ⟨g, x⟩ ⟨hg, hx⟩
  dsimp only at hg hx ⊢
  split
  · trivial
  · -- a terminal
    rename_i hread
    have hno : file g = none := by
      rcases h.entry g x hx with ⟨l, -, hentry⟩ | ⟨hnone, -⟩
      · rw [hentry.read] at hread
        cases hread
      · exact hnone
    refine (meets_eq _).bind ?_
    rintro ⟨m, o⟩ hm
    have hm := Fault.of_eq_ok.1 hm
    obtain ⟨hstreaming, -⟩ := h.keeps (Proc.step_keeps hm rfl)
    have hsame : remaining σ file { k with manager := m } = σ := by
      ext1
      · rfl
      · funext p
        simp only [remaining, slotAt_of_read hm, ← h.pos]
    rw [hsame] at hstreaming
    exact ⟨σ, hidle _ (h.pos_eq_none hd (by simp [streamOf, hg, hno])), hstreaming, hof⟩
  · rename_i hread
    have hfile : k.OpenFile c i g d x := ⟨hc, hd, hused, by simpa using hdir, hg, hx, hread⟩
    obtain ⟨l, q, t, hl, hentry, hq, ht, hpos⟩ := h.openFile hwf hfile
    obtain ⟨hroom, hret⟩ := hfits i g d x rfl hfile
    have hcontents := (h.volume.contents h.sound).read l t ht d.offset.toNat n.toNat hroom hret
    rw [hentry.record, hcontents]
    have hle : (t.read d.offset.toNat n.toNat).length ≤ n.toNat := by
      rw [length_read]
      exact Nat.min_le_left ..
    obtain ⟨k', hk', htable, hstreaming⟩ := h.setOffset hd hpos
      (d.offset + UInt32.ofInt (t.read d.offset.toNat n.toNat).length)
    have hoffset : (d.offset + UInt32.ofInt (t.read d.offset.toNat n.toNat).length).toNat =
        d.offset.toNat + (t.read d.offset.toNat n.toNat).length := by
      exact_mod_cast (toNat_add_ofInt d.offset (Int.natCast_nonneg _) (by omega)).2 (by omega)
    rw [hoffset] at hstreaming
    simp only [Fault.of, ok_bind, Int.toNat_natCast, hk']
    exact ⟨_, .read hpos ht, hstreaming, hof.of_table htable⟩

/-- A used descriptor beyond the first three is that of a regular file, with `P`. -/
def OnFile (k : Kernel) (fd : Int) (P : FileDescriptor → GlobalFd → Prop) : Prop :=
  ∀ c (i : Nat) d, fd = i → 3 ≤ i → k.manager.currentProcess = some c → k.slotAt c i = some d → d.isUsed = true →
    ∃ g x, k.OpenFile c i g d x ∧ P d x

/-- A write ends within the range of the 32-bit offsets and of the return value. -/
def WriteFits (buf : List UInt8) (d : FileDescriptor) (_ : GlobalFd) : Prop :=
  d.offset.toNat + buf.length < 2 ^ 32 ∧ buf.length < 2 ^ 31

/-- `_write` writes to its stream or fails, or there is no stream. -/
theorem Streaming.sysWrite (h : k.Streaming ch file σ) (hwf : WellFormed k) (hof : k.OfUsed file)
    (hc : k.manager.currentProcess = some c) {buf : List UInt8} (hfits : k.OnFile fd (WriteFits buf)) :
    Meets Any (fun r => ∃ ch' σ', Does k σ ⟨some c, .syscall (.write fd buf), some r.1, []⟩ σ' ∧
      r.2.Streaming ch' file σ' ∧ r.2.OfUsed file) (k.sysWrite fd buf) := by
  have hidle : ∀ ret, NoStream σ c fd → Does k σ ⟨some c, .syscall (.write fd buf), ret, []⟩ σ := fun ret => .idle rfl
  unfold Kernel.sysWrite
  split
  · rename_i hone
    exact ⟨ch, σ, hidle _ (.inl (by rw [hone.2]; decide)), h, hof⟩
  rename_i hone
  refine (h.usedSlot hc (by simp)).bind ?_
  rintro r (⟨⟨err, rfl⟩, hno⟩ | ⟨i, d, rfl, rfl, hd, hused, hrefused⟩)
  · exact ⟨ch, σ, hidle _ hno, h, hof⟩
  have hi : 3 ≤ i := by
    simp only [hc, ne_eq, reduceCtorEq, not_false_eq_true, true_and] at hone
    simp only [List.mem_cons, List.not_mem_nil, or_false, not_or] at hrefused
    omega
  obtain ⟨g, x, hfile, hroom, hret⟩ := hfits c i d rfl hi hc hd hused
  obtain ⟨l, q, t, hl, hentry, hq, ht, hpos⟩ := h.openFile hwf hfile
  obtain ⟨hg, hget⟩ := Vector.getElem?_eq_some_iff.1 hfile.entry
  rw [← Vector.get_eq_getElem k.globalFdTable ⟨g, hg⟩] at hget
  have hxused : k.inUse g = true → x.isUsed = true := by
    intro hused
    rw [← hget, inUse_get hg, hused]
  obtain ⟨ret, e, w, ch', hwrite, hfs, href⟩ := h.volume.write h.sound hq hroom hret
  have hrewrites := Volume.fatWrite_rewritesRecord h.sound h.volume.tree hq hroom hret hwrite
  rw [← hentry.record] at hwrite
  simp only [hfile.file, hasFlag_rdonly, Bool.false_eq_true, if_false, hfile.globalOf, ok_bind, hwrite, Fault.of,
    modifyGlobal_eq hg, hget, Int.toNat_natCast]
  rcases href with ⟨rfl, href⟩ | ⟨rfl, href⟩
  · rw [if_pos (by decide)]
    have hstreaming := h.rewrites hrewrites hfs href hl hg hget hentry rfl
    exact ⟨ch', σ, .writeFails hpos, hstreaming, hof.set hg _ w hxused⟩
  · rw [if_neg (Int.not_lt.2 (Int.natCast_nonneg _))]
    have hstreaming := h.rewrites hrewrites hfs href hl hg hget hentry rfl
    obtain ⟨k', hk', htable, hstreaming'⟩ := hstreaming.setOffset hd hpos (d.offset + UInt32.ofInt buf.length)
    have hoffset : (d.offset + UInt32.ofInt buf.length).toNat = d.offset.toNat + buf.length := by
      exact_mod_cast (toNat_add_ofInt d.offset (Int.natCast_nonneg _) (by omega)).2 (by omega)
    rw [hoffset] at hstreaming'
    rw [hk', ok_bind]
    exact ⟨ch', _, .write hpos, hstreaming', (hof.set hg { x with file := ⟨e, x.file.parentEntry⟩ } w hxused).of_table htable⟩

/-- `new_offset` is the target of the seek. -/
private theorem newOffset_eq_target (d : FileDescriptor) (x : GlobalFd) (offset : Int) (whence : Whence) :
    (newOffset d x offset whence).map UInt32.toNat =
      seekTarget d.offset.toNat x.file.fileEntry.fileSize.toNat offset whence := by
  cases whence with
  | cur =>
    simp only [newOffset, seekTarget, Option.map_some, Option.some.injEq, UInt32.toNat_add, UInt32.ofInt,
      UInt32.toNat_ofNat']
    omega
  | _ => rfl

/-- `_lseek` moves its stream to the target, or there is no stream. -/
theorem Streaming.sysLseek (h : k.Streaming ch file σ) (hwf : WellFormed k) (hof : k.OfUsed file)
    (hc : k.manager.currentProcess = some c) {offset : Int} {whence : Whence} (hfile : k.OnFile fd fun _ _ => True) :
    Meets Any (fun r => ∃ σ', Does k σ ⟨some c, .syscall (.lseek fd offset whence), some r.1, []⟩ σ' ∧
      r.2.Streaming ch file σ' ∧ r.2.OfUsed file) (k.sysLseek fd offset whence) := by
  unfold Kernel.sysLseek
  refine (h.usedSlot hc (by simp)).bind ?_
  rintro r (⟨⟨err, rfl⟩, hno⟩ | ⟨i, d, rfl, rfl, hd, hused, hrefused⟩)
  · exact ⟨σ, .idle rfl hno, h, hof⟩
  have hi := three_le hrefused
  obtain ⟨g, x, hfile, -⟩ := hfile c i d rfl hi hc hd hused
  obtain ⟨l, q, t, hl, hentry, hq, ht, hpos⟩ := h.openFile hwf hfile
  have htarget := newOffset_eq_target d x offset whence
  rw [hentry.record, h.volume.size l t ht] at htarget
  rw [Int.toNat_natCast]
  dsimp -zeta only
  extract_lets store
  -- what follows once the new offset is known
  have hstore : Meets Any (fun r : Int × Kernel =>
      ∃ σ', Does k σ ⟨some c, .syscall (.lseek i offset whence), some r.1, []⟩ σ' ∧ r.2.Streaming ch file σ' ∧
        r.2.OfUsed file)
      (store (newOffset d x offset whence)) := by
    dsimp only [store]
    cases hn : newOffset d x offset whence with
    | none =>
      rw [hn, Option.map_none] at htarget
      refine ⟨σ, .seekFails hpos ht fun n hn' => ?_, h, hof⟩
      rw [← htarget] at hn'
      cases hn'
    | some n =>
      rw [hn, Option.map_some] at htarget
      dsimp only
      have hcases := toInt_cases n
      generalize toInt n = z at hcases ⊢
      rcases hcases with ⟨hneg, hfar⟩ | ⟨rfl, hlt⟩
      · rw [if_pos hneg]
        refine ⟨σ, .seekFails hpos ht fun n' hn' => ?_, h, hof⟩
        rw [← htarget] at hn'
        exact Option.some.inj hn' ▸ hfar
      · obtain ⟨k', hk', htable, hstreaming⟩ := h.setOffset hd hpos n
        rw [if_neg (Int.not_lt.2 (Int.natCast_nonneg _)), if_neg (by simp [hfile.file])]
        simp only [ok_bind, Bool.false_eq_true, if_false, hk']
        exact ⟨_, .seek hpos ht htarget.symm hlt, hstreaming, hof.of_table htable⟩
  clear_value store
  cases whence with
  | «end» =>
    dsimp only
    rw [hfile.globalOf, ok_bind]
    dsimp only
    rw [ok_bind]
    rw [newOffset] at hstore
    exact hstore
  | _ =>
    dsimp only
    rw [ok_bind]
    rw [newOffset] at hstore
    exact hstore

/-- `_fstat` changes nothing. -/
theorem Streaming.sysFstat (h : k.Streaming ch file σ) (hwf : WellFormed k) (hc : k.manager.currentProcess = some c)
    (hfile : k.OnFile fd fun _ _ => True) :
    Meets Any (fun r => Does k σ ⟨some c, .syscall (.fstat fd), some r.1, []⟩ σ) (k.sysFstat fd) := by
  unfold Kernel.sysFstat
  refine (h.usedSlot hc (by simp)).bind ?_
  rintro r (⟨⟨err, rfl⟩, hno⟩ | ⟨i, d, rfl, rfl, hd, hused, hrefused⟩)
  · exact .idle rfl hno
  have hi := three_le hrefused
  obtain ⟨g, x, hfile, -⟩ := hfile c i d rfl hi hc hd hused
  obtain ⟨l, q, t, hl, hof, hq, ht, hpos⟩ := h.openFile hwf hfile
  dsimp only
  rw [hfile.globalOf, ok_bind]
  exact .fstat hpos

/-- Only the last cluster of a file is cut, and its attribute ends its name. -/
def Resizes (v : Volume) (size : Nat) (e : DirEntry) : Prop :=
  e.attr = 0 ∧ (size < e.fileSize.toNat → ∀ cs, v.view.Chain e.startCluster.toNat cs → cs.length = 1)

/-- A truncation of the file of an entry, which takes over the records. -/
theorem Streaming.truncate (h : k.Streaming ch file σ) {l : Loc} (hx : k.globalFdTable[g]? = some x) (hl : file g = some l)
    (hof : IsOf k.volume x l) (size : UInt32) (hresizes : Resizes k.volume size.toNat x.file.fileEntry) :
    ∃ ret data w ch' σ', k.volume.fatTruncate x.file size.toNat = some (ret, data, w) ∧
      (ret = -1 ∧ size ≠ 0 ∧ σ' = σ ∨ ret = 0 ∧ σ' = σ.apply 0 (.resize l size.toNat)) ∧
      setLength ret data size = data ∧ IsOf w { x with file := data } l ∧
      ∃ hg : g < MAX_FD, Streaming { k with globalFdTable := k.globalFdTable.set g { x with file := data } hg, volume := w }
        ch' file σ' := by
  obtain ⟨hlt, hget⟩ := Vector.getElem?_eq_some_iff.1 hx
  rw [← Vector.get_eq_getElem k.globalFdTable ⟨g, hlt⟩] at hget
  obtain ⟨q, hq⟩ := hof.parent
  obtain ⟨hattr, hone⟩ := hresizes
  rw [hof.record] at hattr hone
  have hone : size.toNat < (k.volume.view.slot l).fileSize.toNat → (ch (some l)).length = 1 := fun hcut =>
    hone hcut _ (h.volume.tree.owns _ (hq.node_file h.volume.tree).1)
  obtain ⟨ret, data, w, ch', hcall, hfs, href⟩ := h.volume.truncate h.sound hq size.toNat_lt hone
  obtain ⟨hparent, hrewrites, hsize, hgrow⟩ :=
    Volume.fatTruncate_rewritesRecord h.sound h.volume.tree hq size.toNat_lt hone hattr hcall
  have hfile : x.file = ⟨k.volume.view.slot l, x.file.parentEntry⟩ := by rw [← hof.record]
  rw [← hfile] at hcall
  have hset : setLength ret data size = data := by
    unfold setLength
    split
    · rename_i hzero
      rw [← UInt32.toNat_inj.1 (hsize hzero)]
    · rfl
  have hdata : data = ⟨data.fileEntry, x.file.parentEntry⟩ := by rw [← hparent]
  have hof' : IsOf w { x with file := data } l :=
    ⟨hof.read, hof.isDir, hrewrites.slot.symm, q, hparent ▸ hrewrites.fileAt q l _ hq⟩
  rcases href with ⟨rfl, href⟩ | ⟨rfl, href⟩
  · have hsize : size ≠ 0 := by
      rintro rfl
      exact absurd (hgrow (by decide)) (Nat.not_lt_zero _)
    exact ⟨-1, data, w, ch', σ, hcall, .inl ⟨rfl, hsize, rfl⟩, hset, hof', hlt,
      h.rewrites hrewrites hfs href hl hlt hget hof hdata⟩
  · exact ⟨0, data, w, ch', σ.apply 0 (.resize l size.toNat), hcall, .inr ⟨rfl, rfl⟩, hset, hof', hlt,
      h.rewrites hrewrites hfs href hl hlt hget hof hdata⟩

/-- `_ftruncate` resizes the file of its stream or fails, or there is no stream. -/
theorem Streaming.sysFtruncate (h : k.Streaming ch file σ) (hwf : WellFormed k) (hof : k.OfUsed file)
    (hc : k.manager.currentProcess = some c) {length : UInt32}
    (hfits : k.OnFile fd fun _ x => Resizes k.volume length.toNat x.file.fileEntry) :
    Meets Any (fun r => ∃ ch' σ', Does k σ ⟨some c, .syscall (.ftruncate fd length), some r.1, []⟩ σ' ∧
      r.2.Streaming ch' file σ' ∧ r.2.OfUsed file) (k.sysFtruncate fd length) := by
  unfold Kernel.sysFtruncate
  refine (h.usedSlot hc (by simp)).bind ?_
  rintro r (⟨⟨err, rfl⟩, hno⟩ | ⟨i, d, rfl, rfl, hd, hused, hrefused⟩)
  · exact ⟨ch, σ, .idle rfl hno, h, hof⟩
  have hi := three_le hrefused
  obtain ⟨g, x, hfile, hresizes⟩ := hfits c i d rfl hi hc hd hused
  obtain ⟨l, q, t, hl, hentry, hq, ht, hpos⟩ := h.openFile hwf hfile
  obtain ⟨ret, data, w, ch', σ', hcall, hret, hset, -, hg, hstreaming⟩ := h.truncate hfile.entry hl hentry length hresizes
  have hget : k.globalFdTable.get ⟨g, hg⟩ = x := by
    rw [Vector.get_eq_getElem]
    exact (Vector.getElem?_eq_some_iff.1 hfile.entry).2
  have hxused : k.inUse g = true → x.isUsed = true := by
    intro hused
    rw [← hget, inUse_get hg, hused]
  simp only [hfile.globalOf, ok_bind, hcall, Fault.of, modifyGlobal_eq hg, hget, hset]
  rcases hret with ⟨rfl, -, rfl⟩ | ⟨rfl, rfl⟩
  · exact ⟨ch', σ', .resizeFails hpos, hstreaming, hof.set hg _ w hxused⟩
  · exact ⟨ch', _, .resize hpos, hstreaming, hof.set hg _ w hxused⟩

/-! ### Closing -/

/-- The files of the entries without that of `g`. -/
def forget (file : Nat → Option Loc) (g : Nat) : Nat → Option Loc := Function.update file g none

/-- An entry that no used descriptor refers to loses its file. -/
private theorem Streaming.clear (h : k.Streaming ch file σ) (hg : g < MAX_FD) (hx : NoFile x)
    (hnone : ∀ c fd d, k.slotAt c fd = some d → d.isUsed = true → d.globalFd ≠ some g) :
    Streaming { k with globalFdTable := k.globalFdTable.set g x hg } ch (forget file g) σ := by
  refine h.refile hg (.inr ⟨rfl, hx⟩) (fun g' l hl => ?_) (fun _ _ => rfl) hnone
  cases hl

/-- A store to a slot does not look at the entries. -/
theorem setSlot_withTable (k : Kernel) (table : Vector GlobalFd MAX_FD) (c i : Nat) (d : FileDescriptor) :
    ({ k with globalFdTable := table } : Kernel).setSlot c i d =
      (fun k' => { k' with globalFdTable := table }) <$> k.setSlot c i d := by
  unfold setSlot
  split
  · cases k.manager.modifyProc c _ <;> rfl
  · rfl

/-- `_close` ends its stream. -/
theorem Streaming.sysClose (h : k.Streaming ch file σ) (hof : k.OfUsed file) (hc : k.manager.currentProcess = some c)
    (hsound : SoundClose k fd) :
    Meets Any (fun r => ∃ file' σ', Does k σ ⟨some c, .syscall (.close fd), some r.1, []⟩ σ' ∧
      r.2.Streaming ch file' σ' ∧ r.2.OfUsed file') (k.sysClose fd) := by
  unfold Kernel.sysClose
  refine (h.usedSlot hc (by simp)).bind ?_
  rintro r (⟨⟨err, rfl⟩, hno⟩ | ⟨i, d, rfl, rfl, hd, hused, hrefused⟩)
  · exact ⟨file, σ, .idle rfl hno, h, hof⟩
  refine (globalOf_meets_entry k d).bind ?_
  rintro ⟨g, x⟩ ⟨hg, hx⟩
  dsimp only at hg hx ⊢
  obtain ⟨hlt, hget⟩ := Vector.getElem?_eq_some_iff.1 hx
  rw [modifyGlobal_eq hlt, ok_bind, Int.toNat_natCast]
  obtain ⟨k', hk', hslot, htouches, htable, -, -, hstreaming⟩ := h.setSlot hd .zero
  rw [streamOf_of_not_isUsed rfl] at hstreaming
  rw [setSlot_withTable, hk']
  change ∃ file' σ', Does k σ _ σ' ∧
    Streaming { k' with globalFdTable := k.globalFdTable.set g (if x.refCount - 1 = 0 then .zero else
      { x with refCount := x.refCount - 1 }) hlt } ch file' σ' ∧
    OfUsed { k' with globalFdTable := k.globalFdTable.set g (if x.refCount - 1 = 0 then .zero else
      { x with refCount := x.refCount - 1 }) hlt } file'
  have hinUse : ∀ y j, j ≠ g → ({ k' with globalFdTable := k.globalFdTable.set g y hlt } : Kernel).inUse j = k.inUse j := by
    intro y j hj
    unfold inUse
    rw [Vector.getElem?_set_ne hlt (Ne.symm hj)]
  split
  · rename_i hzero
    obtain ⟨p, hp, hpd⟩ := Option.bind_eq_some_iff.1 hd
    obtain ⟨hi, rfl⟩ := Vector.getElem?_eq_some_iff.1 hpd
    have honly := hsound.2 c p _ g x hrefused (Int.natCast_nonneg i) ⟨hc, hp, hi, rfl⟩ hused hg hx (by omega)
    refine ⟨forget file g, _, .close, ?_, ?_⟩
    · rw [← htable]
      refine hstreaming.clear hlt (by intro hzero; cases hzero) fun c' fd' d' hd' hused' hg' => ?_
      by_cases hat : c' = c ∧ fd' = i
      · obtain ⟨rfl, rfl⟩ := hat
        rw [hslot] at hd'
        cases hd'
        cases hused'
      · rw [htouches c' fd' hat] at hd'
        obtain ⟨p', hp', hpd'⟩ := Option.bind_eq_some_iff.1 hd'
        obtain ⟨hfd', rfl⟩ := Vector.getElem?_eq_some_iff.1 hpd'
        exact hat (honly.1 c' p' ⟨fd', hfd'⟩ hp' hused' hg')
    · intro j hj
      by_cases hjg : j = g
      · rw [hjg, forget, Function.update_self] at hj
        exact absurd rfl hj
      · rw [forget, Function.update_of_ne hjg] at hj
        rw [hinUse _ j hjg]
        exact hof j hj
  · refine ⟨file, _, .close, ?_, ?_⟩
    · have hentry : (∃ l, file g = some l ∧ IsOf k'.volume { x with refCount := x.refCount - 1 } l) ∨
          file g = none ∧ NoFile { x with refCount := x.refCount - 1 } := by
        rcases hstreaming.entry g x (htable ▸ hx) with ⟨l, hl, hl'⟩ | hno
        · exact .inl ⟨l, hl, hl'.read, hl'.isDir, hl'.record, hl'.parent⟩
        · exact .inr hno
      rw [← htable]
      exact hstreaming.setEntry hlt hentry
    · intro j hj
      by_cases hjg : j = g
      · obtain ⟨y, hy, hyused⟩ := inUse_iff.1 (hof j hj)
        rw [hjg] at hy ⊢
        obtain rfl := Option.some.inj (hx.symm.trans hy)
        exact inUse_iff.2 ⟨_, Vector.getElem?_set_self hlt, hyused⟩
      · rw [hinUse _ j hjg]
        exact hof j hj

end Kernel

end DBolOS.Vfs
