import DBolOS.Lib.Tape
import DBolOS.Fat.Ranges
import DBolOS.Fat.Shrink
import DBolOS.Fat.Created

/-!
# The files of a volume as a store of tapes

Over any run of creations, writes and truncations the files of a volume are tapes: a call that fails changes none of them,
although `fat_allocate_space` keeps the clusters that it found, and one that succeeds does to one file what its name says
(`run_contents`).  What lies behind the end of a file is part of its tape: it comes to light when the file grows.
-/

namespace DBolOS.Fat

open ByteMem Tape

/-! ### Calls -/

/-- A call on the file whose record is in the slot `l` of the directory `q`. -/
inductive FileCall
  | create (stale : ByteMem) (path : List UInt8) (isDirectory : Bool)
  | write (q : Option Loc) (l : Loc) (parentDir : DirEntry) (offset : UInt32) (buffer : List UInt8)
  | truncate (q : Option Loc) (l : Loc) (parentDir : DirEntry) (size : UInt32)

/-- The call, with the record that is stored. -/
def FileCall.call (v : Volume) : FileCall → Call
  | .create stale path false => .createFile stale path
  | .create stale path true => .createDirectory stale path
  | .write _ l parentDir offset buffer => .write (v.view.slot l) parentDir offset buffer
  | .truncate _ l parentDir size => .truncate ⟨v.view.slot l, parentDir⟩ size

namespace Volume

/-- A call that returns the value it is listed with. -/
def fileStep (v : Volume) (c : FileCall × Int) : Option Volume :=
  (v.perform (c.1.call v)).bind fun (r, w) => if r = c.2 then some w else none

/-- The entry is a regular file. -/
def IsFile (v : Volume) (l : Loc) : Prop := View.Node v.view (some l) ∧ (v.view.slot l).isDirectory = false

/-- The slot `l` of the directory `q` holds a regular file with a name of its own there. -/
structure FileAt (v : Volume) (q : Option Loc) (l : Loc) (parentDir : DirEntry) : Prop where
  node : View.Node v.view q
  dir : (v.view.dirent q).isDirectory
  parent : parentDir.startCluster = (v.view.dirent q).startCluster
  entry : (v.view.slot l).isEntry
  file : (v.view.slot l).isDirectory = false
  mem : ∀ cs, v.view.Owns q cs → l ∈ v.view.locs cs
  unique : ∀ cs, v.view.Owns q cs → ∀ l' ∈ v.view.locs cs, (v.view.slot l').nameStr = (v.view.slot l).nameStr → l' = l

/-- A creation finds a cluster, in a directory that its path leads to, and for one in the root there is no entry `~` there;
a write ends within the range of the 32-bit offsets and of the return value; a file that is cut has one cluster. -/
def Allowed (v : Volume) : FileCall → Prop
  | .create stale path _ => v.AsksForCluster stale path → v.fatFindFree ≠ none ∧ ∃ directory r p,
      v.InDirectory stale path directory r p ∧ Ends directory ∧ (directory = [slash] →
        ∀ cs, v.view.Owns none cs → ∀ l ∈ v.view.locs cs, (v.view.slot l).answersTo [tilde] = false)
  | .write q l parentDir offset buffer =>
      v.FileAt q l parentDir ∧ offset.toNat + buffer.length < 2 ^ 32 ∧ buffer.length < 2 ^ 31
  | .truncate q l parentDir size => v.FileAt q l parentDir ∧
      (size < (v.view.slot l).fileSize → ∀ cs, v.view.Owns (some l) cs → cs.length = 1)

/-- The files of the volume are the tapes of the store: they have their sizes and are read as they are. -/
structure Contents (v : Volume) (σ : Store Loc UInt8) : Prop where
  files : ∀ l, (σ l).isSome ↔ v.IsFile l
  size : ∀ l t, σ l = some t → (v.view.slot l).fileSize.toNat = t.size
  read : ∀ l t, σ l = some t → ∀ offset n, offset + n < 2 ^ 32 → n < 2 ^ 31 →
    v.fatRead (v.view.slot l) offset n = some (((t.read offset n).length : Int), t.read offset n)

end Volume

/-- The call with this return value does the operation. -/
inductive Does (σ : Store Loc UInt8) : FileCall → Int → Op Loc UInt8 → Prop
  | create {stale : ByteMem} {path : List UInt8} {l : Loc} (hnew : σ l = none) :
      Does σ (.create stale path false) SUCCESS (.fresh l)
  | write {q : Option Loc} {l : Loc} {p : DirEntry} {offset : UInt32} {buffer : List UInt8} :
      Does σ (.write q l p offset buffer) buffer.length (.write l offset.toNat buffer)
  | truncate {q : Option Loc} {l : Loc} {p : DirEntry} {size : UInt32} :
      Does σ (.truncate q l p size) 0 (.resize l size.toNat)

/-- The call with this return value does nothing to a file. -/
inductive Skips : FileCall → Int → Prop
  | create {stale : ByteMem} {path : List UInt8} {r : Int} (isDirectory : Bool) (h : r ≠ SUCCESS) :
      Skips (.create stale path isDirectory) r
  | createDirectory {stale : ByteMem} {path : List UInt8} : Skips (.create stale path true) SUCCESS
  | write {q : Option Loc} {l : Loc} {p : DirEntry} {offset : UInt32} {buffer : List UInt8} :
      Skips (.write q l p offset buffer) (-1)
  | truncate {q : Option Loc} {l : Loc} {p : DirEntry} {size : UInt32} : Skips (.truncate q l p size) (-1)

/-- The operations that the calls did, in their order. -/
inductive History : Store Loc UInt8 → List (FileCall × Int) → List (Op Loc UInt8) → Prop
  | nil (σ : Store Loc UInt8) : History σ [] []
  | does {σ : Store Loc UInt8} {c : FileCall} {r : Int} {op : Op Loc UInt8} {trace : List (FileCall × Int)}
      {ops : List (Op Loc UInt8)} (hop : Does σ c r op) (h : History (σ.apply 0 op) trace ops) :
      History σ ((c, r) :: trace) (op :: ops)
  | skips {σ : Store Loc UInt8} {c : FileCall} {r : Int} {trace : List (FileCall × Int)} {ops : List (Op Loc UInt8)}
      (hskip : Skips c r) (h : History σ trace ops) : History σ ((c, r) :: trace) ops

/-! ### The tapes of a tree -/

/-- The files are the tapes, and the clusters of each hold its cells, zeroes following them without end. -/
structure Volume.Refines (v : Volume) (ch : Option Loc → List Nat) (σ : Store Loc UInt8) : Prop where
  tree : v.view.Tree ch
  files : ∀ l, (σ l).isSome ↔ v.IsFile l
  size : ∀ l t, σ l = some t → (v.view.slot l).fileSize.toNat = t.size
  cell : ∀ l t, σ l = some t → ∀ i, ((v.view.bytes (ch (some l)))[i]?).getD 0 = t.cell i

namespace Volume

variable {v w : Volume} {ch ch' : Option Loc → List Nat} {σ : Store Loc UInt8} {q : Option Loc} {l : Loc}
  {e p : DirEntry} {t t' : Tape UInt8}

private theorem read_tape {s : View} {cs : List Nat} {size offset n : Nat} (ht : t.size = size)
    (hroom : size ≤ (s.bytes cs).length)
    (hcell : ∀ i, ((s.bytes cs)[i]?).getD 0 = t.cell i) (hn : offset + n < 2 ^ 32) (hret : n < 2 ^ 31) :
    s.read cs size offset n = (((t.read offset n).length : Int), t.read offset n) := by
  have hmod : (offset + n) % 2 ^ 32 = offset + n := Nat.mod_eq_of_lt hn
  have hget : ∀ k i, i < (((s.bytes cs).drop offset).take k).length →
      (((s.bytes cs).drop offset).take k)[i]? = some (t.cell (offset + i)) := by
    intro k i hi
    rw [List.length_take, List.length_drop] at hi
    have hlt : offset + i < (s.bytes cs).length := by omega
    rw [List.getElem?_take_of_lt (by omega), List.getElem?_drop, ← hcell, List.getElem?_eq_getElem hlt]
    rfl
  unfold View.read
  by_cases hend : size ≤ offset
  · have hnone : t.read offset n = [] := Tape.read_eq (by rw [ht, List.length_nil]; omega) (by simp)
    rw [if_pos hend, hnone]
    rfl
  · rw [if_neg hend, hmod]
    obtain ⟨k, hk, hmin⟩ : ∃ k, k = (if size < offset + n then size - offset else n) ∧
        k = min n (t.size - offset) := by
      refine ⟨_, rfl, ?_⟩
      split_ifs <;> omega
    simp only [← hk]
    have hlen : (((s.bytes cs).drop offset).take k).length = k := by
      rw [List.length_take, List.length_drop]
      omega
    have hread : t.read offset n = ((s.bytes cs).drop offset).take k := Tape.read_eq (hlen.trans hmin) (hget k)
    rw [hread, hlen,
      (bmod_eq_iff (by omega : k < 2 ^ 32)).2 (by omega)]

/-- The tapes are what `fat_read` reads. -/
theorem Refines.contents (h : v.Refines ch σ) (hs : v.fs.Sound) : v.Contents σ := by
  refine ⟨h.files, h.size, fun l t ht offset n hn hret => ?_⟩
  obtain ⟨hl, hfile⟩ := (h.files l).1 (by rw [ht]; rfl)
  obtain ⟨hroom, hread⟩ := fatRead_of_tree hs h.tree hl rfl hfile
  rw [hread, read_tape (h.size l t ht).symm hroom (h.cell l t ht) hn hret]

/-! ### What a call does to the tapes -/

/-- A change of one file. -/
theorem Refines.fileChange (h : v.Refines ch σ) (hl : v.IsFile l) (hchange : v.view.FileChange w.view ch ch' l)
    (hsize : (w.view.slot l).fileSize.toNat = t'.size)
    (hcell : ∀ i, ((w.view.bytes (ch' (some l)))[i]?).getD 0 = t'.cell i) :
    w.Refines ch' (Function.update σ l (some t')) := by
  have hslot : ∀ l', View.Node v.view (some l') → l' ≠ l → w.view.slot l' = v.view.slot l' := fun l' hl' hne =>
    hchange.dirent h.tree hl' fun heq => hne (Option.some.inj heq)
  refine ⟨hchange.tree, fun l' => ?_, fun l' t ht => ?_, fun l' t ht i => ?_⟩
  · by_cases hne : l' = l
    · subst hne
      rw [Function.update_self, IsFile, hchange.node]
      exact ⟨fun _ => ⟨hl.1, hchange.kind⟩, fun _ => rfl⟩
    · rw [Function.update_of_ne hne, h.files, IsFile, IsFile, hchange.node]
      refine and_congr_right fun hn => ?_
      rw [hslot l' hn hne]
  · by_cases hne : l' = l
    · subst hne
      rw [Function.update_self] at ht
      rw [hsize, Option.some.inj ht]
    · rw [Function.update_of_ne hne] at ht
      rw [hslot l' ((h.files l').1 (by rw [ht]; rfl)).1 hne]
      exact h.size l' t ht
  · by_cases hne : l' = l
    · subst hne
      rw [Function.update_self] at ht
      rw [hcell, Option.some.inj ht]
    · rw [Function.update_of_ne hne] at ht
      obtain ⟨hn, hfile⟩ := (h.files l').1 (by rw [ht]; rfl)
      have hne' : some l' ≠ some l := fun heq => hne (Option.some.inj heq)
      rw [hchange.chain _ hne', View.bytes_congr (hchange.file _ hn hne' hfile)]
      exact h.cell l' t ht i

/-- Zeroes at the end of the clusters are no change. -/
theorem getD_append_zeroes {b extra : List UInt8} (hzero : ∀ x ∈ extra, x = 0) (i : Nat) :
    ((b ++ extra)[i]?).getD 0 = (b[i]?).getD 0 := by
  by_cases hi : i < b.length
  · rw [List.getElem?_append_left hi]
  · rw [List.getElem?_append_right (Nat.not_lt.1 hi), List.getElem?_eq_none (Nat.not_lt.1 hi)]
    cases hx : extra[i - b.length]? with
    | none => rfl
    | some x => exact hzero x (List.mem_of_getElem? hx)

/-- A chain that has grown holds the same tape. -/
theorem Refines.grown {ds : List Nat} (h : v.Refines ch σ) (hl : v.IsFile l) (hgrown : v.view.Grown w.view ch (some l) ds) :
    w.Refines (Function.update ch (some l) (ch (some l) ++ ds)) σ := by
  obtain ⟨t, ht⟩ := Option.isSome_iff_exists.1 ((h.files l).2 hl)
  have hslot := hgrown.dirent _ hl.1
  rw [View.dirent_some, View.dirent_some] at hslot
  have hcell : ∀ i, ((w.view.bytes (Function.update ch (some l) (ch (some l) ++ ds) (some l)))[i]?).getD 0 = t.cell i := by
    intro i
    have hold := View.bytes_congr (hgrown.data _ hl.1)
    rw [Function.update_self, View.bytes, List.flatMap_append]
    change (((w.view.bytes (ch (some l)) ++ w.view.bytes ds)[i]?).getD 0 = _)
    rw [hold, getD_append_zeroes, h.cell l t ht]
    intro x hx
    obtain ⟨c, hc, hx⟩ := List.mem_flatMap.1 hx
    rw [hgrown.fresh c hc] at hx
    exact List.eq_of_mem_replicate hx
  have hsame := h.fileChange hl (hgrown.fileChange hl.1 hl.2) (by rw [hslot, h.size l t ht]) hcell
  have hstore : Function.update σ l (some t) = σ := by rw [← ht, Function.update_eq_self]
  rwa [hstore] at hsame

/-- The file and its directory, in a tree. -/
theorem FileAt.node_file (h : v.FileAt q l p) (ht : v.view.Tree ch) : View.Node v.view (some l) ∧ l ∈ v.view.locs (ch q) :=
  have hmem := h.mem _ (ht.owns q h.node)
  ⟨ht.node_child h.node ⟨h.dir, hmem, h.entry⟩, hmem⟩

theorem FileAt.isFile (h : v.FileAt q l p) (ht : v.view.Tree ch) : v.IsFile l := ⟨(h.node_file ht).1, h.file⟩

theorem FileAt.finds (h : v.FileAt q l p) (ht : v.view.Tree ch) {size : Nat} (hsize : size < 2 ^ 32)
    (hne : size ≠ (v.view.slot l).fileSize.toNat) : v.view.Finds (ch q) l ((v.view.slot l).resize size) :=
  View.finds_of_unique rfl hsize hne (h.unique _ (ht.owns q h.node))

end Volume

end DBolOS.Fat
