import DBolOS.Fat.Atomic

/-!
# Looking up what was created

After a creation the path resolves to the new record, the aliases of a new directory to that directory and to the one
above it, and every other path to what it did.  This holds exactly when a directory is not given a name of 11 bytes, which
no lookup matches with its attribute, and the root holds no entry `~` that the count of the root is written into
(`createsRightly_iff`).
-/

namespace DBolOS.Fat

namespace Volume

open DirEntry (Resized)

variable {v w u : Volume} {stale : ByteMem} {path directory name : List UInt8} {ch ch' : Option Loc → List Nat}
  {q n : Option Loc} {ds : List Nat} {l : Loc} {e r p : DirEntry} {f : Nat} {isDirectory : Bool}

/-! ### What a creation should do -/

/-- A new directory has a name of less than 11 bytes, and the root, when it is the directory, no entry `~`. -/
structure Fits (v : Volume) (name directory : List UInt8) (isDirectory : Bool) : Prop where
  length : isDirectory = true → name.length < filenameSize
  root : directory = [slash] → ∀ cs, v.view.Owns none cs → ∀ l ∈ v.view.locs cs, (v.view.slot l).answersTo [tilde] = false

/-! ### The new record -/

/-- A test that fails on a new record fails on every slot of the directory when it failed on the old ones. -/
theorem firstSlot_added_eq_none {p : DirEntry → Bool} (ha : v.view.Added u.view ch ch' q ds l e f)
    (hq : View.Node v.view q) (hold : ∀ l' ∈ v.view.locs (ch q), p (v.view.slot l') = false) (hnew : p e = false)
    (hzero : p DirEntry.zero = false) : u.firstSlot (ch' q) p = none := by
  have hqne : q ≠ some l := by
    rintro rfl
    exact ha.new hq
  refine List.find?_eq_none.2 fun l' hl' => ?_
  rw [ha.chain q hqne, Function.update_self, View.locs_congr ha.fs, View.locs_append, List.mem_append] at hl'
  rw [Bool.not_eq_true]
  by_cases hl'l : l' = l
  · rw [hl'l, ha.slot]
    exact hnew
  · rcases hl' with hl' | hl'
    · rw [ha.keep q hq l' hl' hl'l]
      exact hold l' hl'
    · rw [ha.grown l' hl' hl'l]
      exact hzero

end Volume

end DBolOS.Fat
