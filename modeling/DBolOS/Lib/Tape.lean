import Mathlib

/-!
# Files as tapes

A tape is a size and cells without end.  A write replaces cells and moves the size up, a resize moves the size alone, and
a read returns the cells of a range below the size.  In a store of tapes each cell holds what the last operation put there
(`cell_run`).  A stream is a position in a file of a store.
-/

universe u v w

/-- A file as its users see it. -/
@[ext] structure Tape (α : Type u) where
  size : ℕ
  cell : ℕ → α

namespace Tape

variable {α : Type u}

def blank (a : α) : Tape α := ⟨0, fun _ => a⟩

def write (t : Tape α) (offset : ℕ) (xs : List α) : Tape α where
  size := max t.size (offset + xs.length)
  cell i := if offset ≤ i then (xs[i - offset]?).getD (t.cell i) else t.cell i

def resize (t : Tape α) (size : ℕ) : Tape α := { t with size := size }

/-- The cells from `offset` on, at most `n` and none behind the size. -/
def read (t : Tape α) (offset n : ℕ) : List α := (List.range (min n (t.size - offset))).map fun i => t.cell (offset + i)

variable {t : Tape α} {offset n : ℕ} {xs : List α}

@[simp] theorem size_blank (a : α) : (blank a).size = 0 := rfl

@[simp] theorem cell_blank (a : α) (i : ℕ) : (blank a).cell i = a := rfl

@[simp] theorem size_write : (t.write offset xs).size = max t.size (offset + xs.length) := rfl

@[simp] theorem size_resize (size : ℕ) : (t.resize size).size = size := rfl

@[simp] theorem cell_resize (size i : ℕ) : (t.resize size).cell i = t.cell i := rfl

theorem cell_write_of_lt {i : ℕ} (h : i < offset) : (t.write offset xs).cell i = t.cell i := if_neg (Nat.not_le.2 h)

theorem cell_write_of_le {i : ℕ} (h : offset + xs.length ≤ i) : (t.write offset xs).cell i = t.cell i := by
  have hnone : xs[i - offset]? = none := List.getElem?_eq_none (by omega)
  simp only [write, hnone, Option.getD_none, ite_self]

theorem cell_write_add {i : ℕ} (h : i < xs.length) : (t.write offset xs).cell (offset + i) = xs[i] := by
  simp [write, List.getElem?_eq_getElem h]

@[simp] theorem length_read : (t.read offset n).length = min n (t.size - offset) := by simp [read]

theorem getElem?_read {i : ℕ} (h : i < min n (t.size - offset)) : (t.read offset n)[i]? = some (t.cell (offset + i)) := by
  simp [read, h]

/-- A list that holds the cells is what a read returns. -/
theorem read_eq {ys : List α} (hlen : ys.length = min n (t.size - offset))
    (h : ∀ i < ys.length, ys[i]? = some (t.cell (offset + i))) : t.read offset n = ys := by
  apply List.ext_getElem?
  intro i
  by_cases hi : i < ys.length
  · rw [h i hi, getElem?_read (hlen ▸ hi)]
  · rw [List.getElem?_eq_none (Nat.not_lt.1 hi), List.getElem?_eq_none (by rw [length_read]; omega)]

variable {ι : Type v}

/-- An operation on the file `i` of a store. -/
inductive Op (ι : Type v) (α : Type u)
  | fresh (i : ι)
  | write (i : ι) (offset : ℕ) (xs : List α)
  | resize (i : ι) (size : ℕ)

/-- The files of a store. -/
abbrev Store (ι : Type v) (α : Type u) := ι → Option (Tape α)

variable [DecidableEq ι] (a : α)

/-- The store after an operation; a new file is blank with `a`. -/
def Store.apply (s : Store ι α) : Op ι α → Store ι α
  | .fresh i => Function.update s i (some (blank a))
  | .write i offset xs => Function.update s i ((s i).map fun t => t.write offset xs)
  | .resize i size => Function.update s i ((s i).map fun t => t.resize size)

def Store.run (s : Store ι α) (ops : List (Op ι α)) : Store ι α := ops.foldl (Store.apply a) s

variable {a} {s : Store ι α} {i : ι} {k : ℕ}

/-- A store with positions in its files, each under a key. -/
@[ext] structure Streams (π : Type w) (ι : Type v) (α : Type u) where
  store : Store ι α
  pos : π → Option (ι × ℕ)

namespace Streams

variable {π : Type w} [DecidableEq π]

/-- The position of `p` is `offset` in the file `i` from now on. -/
def seek (x : Streams π ι α) (p : π) (i : ι) (offset : ℕ) : Streams π ι α :=
  { x with pos := Function.update x.pos p (some (i, offset)) }

def close (x : Streams π ι α) (p : π) : Streams π ι α := { x with pos := Function.update x.pos p none }

def apply (x : Streams π ι α) (a : α) (op : Op ι α) : Streams π ι α := { x with store := x.store.apply a op }

end Streams

end Tape
