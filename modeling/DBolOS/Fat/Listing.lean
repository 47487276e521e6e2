import DBolOS.Lib.Cursor
import DBolOS.Fat.Slots

/-!
# The records of a directory by number

`fat_get_dir_entry` finds a record by its number with a cursor that counts the used slots in front of it.  It looks at
the count before it looks at the slot, so that the slot behind the last one counted is taken even when it is unused
(`fatGetDirEntry_spec`).
-/

namespace DBolOS.Fat

namespace Volume

/-- The loop over the slots of one cluster, with `slots` slots left: the slot at which `count` is `n`, or the count behind
the cluster. -/
def countSlots (n : Nat) (buffer : List UInt8) : Nat → Nat → Nat → Option (Nat ⊕ Nat)
  | 0, _, count => some (.inr count)
  | slots + 1, i, count =>
    if count = n then some (.inl i)
    else do
      let empty ← nameMatches [0] (slotAt buffer i)
      countSlots n buffer slots (i + 1) (if empty then count else count + 1)

/-- The loop over the clusters of the directory, from its `i`-th one. -/
def countClusters (v : Volume) (n start : Nat) : Nat → Nat → Nat → Option (Except Int DirEntry)
  | 0, _, _ => none
  | fuel + 1, i, count => do
    match ← v.getIthCluster start i with
    | none => some (.error FILE_NOT_FOUND)
    | some cluster =>
      let buffer ← v.fatReadDataCluster cluster v.zeroBuffer
      match ← countSlots n buffer v.fs.slotsPerCluster 0 count with
      | .inl slot => some (.ok (slotAt buffer slot))
      | .inr count => countClusters v n start fuel (i + 1) count

/-- A walk around a cycle counts a record on every round, or never ends. -/
def fatGetDirEntry (v : Volume) (dir : DirEntry) (n : Nat) : Option (Except Int DirEntry) :=
  if dir.fileSize.toNat ≤ n then some (.error FILE_NOT_FOUND)
  else v.countClusters n dir.startCluster.toNat ((n + 2) * (v.walkFuel + 1)) 0 0

end Volume

/-- The slot is in use. -/
def DirEntry.used (e : DirEntry) : Bool := !e.unused

theorem DirEntry.used_iff {e : DirEntry} : e.used = true ↔ e.nameStr ≠ [] := by simp [DirEntry.used, DirEntry.unused]

/-- The slots of a list of clusters, as records. -/
def View.records (s : View) (cs : List Nat) : List DirEntry := (s.locs cs).map s.slot

/-! ### What is found -/

namespace Volume

/-- A cluster is counted through as the cursor goes through its records, with `n` still to count. -/
private theorem countSlots_spec (buffer : List UInt8) {n slots i count : Nat} (hcount : count ≤ n)
    (more : List DirEntry) :
    ∃ r, countSlots n buffer slots i count = some r ∧
      (match r with
        | .inl slot => Cursor.nth DirEntry.used (((List.range' i slots).map (slotAt buffer)) ++ more) (n - count) =
            some (slotAt buffer slot)
        | .inr count' => count' ≤ n ∧
            Cursor.nth DirEntry.used (((List.range' i slots).map (slotAt buffer)) ++ more) (n - count) =
              Cursor.nth DirEntry.used more (n - count')) := by
  induction slots generalizing i count with
  | zero => exact ⟨.inr count, rfl, hcount, rfl⟩
  | succ slots ih =>
    rw [countSlots, List.range'_succ, List.map_cons, List.cons_append, Cursor.nth_cons]
    by_cases heq : count = n
    · rw [if_pos heq, if_pos (by omega)]
      exact ⟨_, rfl, rfl⟩
    · rw [if_neg heq, if_neg (by omega), nameMatches_nil]
      simp only [Option.bind_eq_bind, Option.bind_some]
      by_cases hused : (slotAt buffer i).used = true
      · have hempty : (slotAt buffer i).unused = false := by simpa [DirEntry.used] using hused
        rw [if_pos hused, hempty, Nat.sub_sub]
        exact ih (by omega : count + 1 ≤ n)
      · have hempty : (slotAt buffer i).unused = true := by simpa [DirEntry.used] using hused
        rw [if_neg hused, hempty]
        exact ih hcount

private theorem countClusters_spec {v : Volume} {n start fuel i count : Nat} {cs : List Nat} (hs : v.fs.Sound)
    (h : v.view.Chain start cs) (hfuel : cs.length < fuel + i) (hi : i ≤ cs.length) (hcount : count ≤ n) :
    v.countClusters n start fuel i count =
      some (match Cursor.nth DirEntry.used (v.view.records (cs.drop i)) (n - count) with
        | none => .error FILE_NOT_FOUND
        | some e => .ok e) := by
  induction fuel generalizing i count with
  | zero => omega
  | succ fuel ih =>
    rw [countClusters, getIthCluster_spec h]
    cases hc : cs[i]? with
    | none =>
      rw [List.drop_eq_nil_of_le (List.getElem?_eq_none_iff.1 hc), View.records, View.locs, List.flatMap_nil,
        List.map_nil, Cursor.nth_nil]
      rfl
    | some c =>
      have hilt : i < cs.length := (List.getElem?_eq_some_iff.1 hc).1
      have hread := fatReadDataCluster_spec (View.Chain.lt_length h (List.mem_of_getElem? hc)) (length_zeroBuffer hs)
      have hdrop : cs.drop i = c :: cs.drop (i + 1) := by
        rw [List.drop_eq_getElem_cons hilt, (List.getElem?_eq_some_iff.1 hc).2]
      have hrecords : v.view.records (cs.drop i) =
          (List.range' 0 v.fs.slotsPerCluster).map (slotAt (v.view.data c)) ++ v.view.records (cs.drop (i + 1)) := by
        rw [hdrop, View.records, View.locs, List.flatMap_cons, List.map_append, List.map_map, ← List.range_eq_range']
        rfl
      obtain ⟨r, hr, hspec⟩ := @countSlots_spec (v.view.data c) n v.fs.slotsPerCluster 0 count hcount
        (v.view.records (cs.drop (i + 1)))
      rw [hrecords]
      simp only [Option.bind_eq_bind, Option.bind_some, hread, hr]
      cases r with
      | inl slot => rw [hspec]
      | inr count' =>
        rw [hspec.2]
        exact ih (by omega) hilt hspec.1

/-- The record number `n` is the one at position `n` of the cursor, below the size of the directory. -/
theorem fatGetDirEntry_spec {v : Volume} {dir : DirEntry} {cs : List Nat} (hs : v.fs.Sound)
    (h : v.view.Chain dir.startCluster.toNat cs) (n : Nat) :
    v.fatGetDirEntry dir n =
      some (match (Cursor.listed DirEntry.used dir.fileSize.toNat (v.view.records cs))[n]? with
        | none => .error FILE_NOT_FOUND
        | some e => .ok e) := by
  rw [fatGetDirEntry, Cursor.getElem?_listed]
  by_cases hlt : n < dir.fileSize.toNat
  · have hfuel : cs.length < (n + 2) * (v.walkFuel + 1) + 0 := by
      have := length_le_walkFuel h
      have := Nat.le_mul_of_pos_left (v.walkFuel + 1) (by omega : 0 < n + 2)
      omega
    rw [if_neg (by omega), if_pos hlt, countClusters_spec hs h hfuel (Nat.zero_le _) (Nat.zero_le n)]
    rfl
  · rw [if_pos (Nat.not_lt.1 hlt), if_neg hlt]

end Volume

end DBolOS.Fat
