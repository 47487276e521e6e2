import DBolOS.Fat.Names
import DBolOS.Vfs.Syscalls

/-!
# Strings in the buffers of the calls

A string that `strncpy` copied into a buffer goes on with the bytes of the buffer up to the next zero
(`bufferString_copyOver`).
-/

namespace DBolOS.Vfs

variable {stale : ByteMem} {size : Nat} {s g path old buf : List UInt8}

theorem bufferString_eq_some (h : bufferString buf = some s) : NoNul s ∧ s.length < buf.length := by
  unfold bufferString at h
  split at h
  · rename_i hzero
    cases h
    refine ⟨noNul_cstr buf, ?_⟩
    rcases cstr_eq_or_append buf with hall | ⟨u, hu⟩
    · rw [← hall] at hzero
      exact absurd rfl (noNul_cstr buf 0 hzero)
    · have := congrArg List.length hu
      rw [List.length_append, List.length_cons] at this
      omega
  · cases h

theorem noNul_append {s t : List UInt8} (hs : NoNul s) (ht : NoNul t) : NoNul (s ++ t) := by
  intro b hb
  rcases List.mem_append.1 hb with hb | hb
  · exact hs b hb
  · exact ht b hb

/-- The string in a buffer that starts with bytes that are not zero. -/
private theorem bufferString_append (hs : NoNul s) (buf : List UInt8) :
    bufferString (s ++ buf) = (bufferString buf).map (s ++ ·) := by
  have hno : (0 : UInt8) ∉ s := fun h => hs 0 h rfl
  have hmem : 0 ∈ s ++ buf ↔ 0 ∈ buf := by simp [hno]
  unfold bufferString
  by_cases hzero : 0 ∈ buf
  · rw [if_pos hzero, if_pos (hmem.2 hzero), Option.map_some]
    congr 1
    rw [cstr, List.takeWhile_append_of_pos (by simpa [NoNul] using hs), cstr]
  · rw [if_neg hzero, if_neg (mt hmem.1 hzero), Option.map_none]

private theorem bufferString_zero (buf : List UInt8) : bufferString (0 :: buf) = some [] := by simp [bufferString, cstr]

theorem bufferString_of_noNul (hs : NoNul s) : bufferString s = none := if_neg fun h => hs 0 h rfl

/-- What stands behind the copy goes on with the string. -/
theorem bufferString_copyOver (stale : ByteMem) (size : Nat) (hs : NoNul path) (hne : path ≠ []) :
    bufferString (copyOver stale size path) =
      (bufferString (stale.readBytes path.length (size - path.length))).map (path ++ ·) := by
  rw [copyOver, if_neg hne]
  rcases Nat.lt_or_ge size path.length with hlt | hle
  · have htake : (path.take size).length = size := by
      rw [List.length_take]
      omega
    have hzero : size - path.length = 0 := by omega
    rw [htake, Nat.sub_self, hzero, ByteMem.readBytes, List.range_zero, List.map_nil, List.append_nil,
      bufferString_of_noNul (hs.mono (List.take_subset _ _)), ByteMem.readBytes, List.range_zero, List.map_nil]
    rfl
  · rw [List.take_of_length_le hle, bufferString_append hs]

/-- A zero behind the copy ends the string. -/
theorem bufferString_copyOver_zero (hs : NoNul path) (hne : path ≠ []) (hlen : path.length < size)
    (hzero : stale path.length = 0) : bufferString (copyOver stale size path) = some path := by
  obtain ⟨n, hn⟩ : ∃ n, size - path.length = n + 1 := ⟨size - path.length - 1, by omega⟩
  rw [bufferString_copyOver stale size hs hne, hn, ByteMem.readBytes, List.range_succ_eq_map, List.map_cons,
    Nat.add_zero, hzero, bufferString_zero, Option.map_some, List.append_nil]

/-- Any other byte makes it longer. -/
theorem length_lt_of_copyOver (hs : NoNul path) (hne : path ≠ []) (hzero : stale path.length ≠ 0)
    (h : bufferString (copyOver stale size path) = some s) : path.length < s.length := by
  rw [bufferString_copyOver stale size hs hne, Option.map_eq_some_iff] at h
  obtain ⟨g, hg, rfl⟩ := h
  cases hn : size - path.length with
  | zero =>
    rw [hn] at hg
    cases hg
  | succ n =>
    rw [hn, ByteMem.readBytes, List.range_succ_eq_map, List.map_cons, Nat.add_zero, bufferString] at hg
    split at hg
    · rw [cstr, List.takeWhile_cons_of_pos (by simpa using hzero)] at hg
      rw [← Option.some.inj hg, List.length_append, List.length_cons]
      omega
    · cases hg

/-! ### Splitting paths -/

open Fat (slash)

private theorem readBytes_zeros (a n : Nat) : ByteMem.readBytes (fun _ => 0) a n = List.replicate n 0 := by
  rw [ByteMem.readBytes, List.map_const', List.length_range]

private theorem copyOver_zeros (hlen : path.length < size) :
    ∃ n, size = path.length + n + 1 ∧ copyOver (fun _ => 0) size path = path ++ 0 :: List.replicate n 0 := by
  obtain ⟨n, rfl⟩ : ∃ n, size = path.length + n + 1 := ⟨size - path.length - 1, by omega⟩
  refine ⟨n, rfl, ?_⟩
  rw [copyOver, readBytes_zeros]
  by_cases hne : path = []
  · subst hne
    rw [if_pos rfl]
    simp
  · rw [if_neg hne, List.take_of_length_le (by omega), Nat.add_assoc, Nat.add_sub_cancel_left, List.replicate_succ]

/-- `strrchr` needs a terminator. -/
private theorem strrchr_eq_none {c : UInt8} {a : UInt8} (hs : NoNul s) (i : Nat) (ret : Option Nat) :
    strrchr c (a :: s) i ret = none := by
  induction s generalizing a i ret with
  | nil => rfl
  | cons b s ih =>
    obtain ⟨hb, hs⟩ := hs.of_cons
    rw [strrchr, if_neg hb]
    exact ih hs (i + 1) _

/-- Without a zero behind it the copy is not split. -/
theorem splitCopy_eq_none (hpath : NoNul path) (hstale : (∀ i, stale i ≠ 0) ∨ pathSize ≤ path.length) :
    splitCopy stale path = none := by
  obtain ⟨a, t, ht, hnul⟩ : ∃ a t, copyOver stale pathSize path = a :: t ∧ NoNul t := by
    have hread : ∀ a n, (∀ i, stale i ≠ 0) → NoNul (stale.readBytes a n) := by
      intro a n hall b hb
      obtain ⟨i, -, rfl⟩ := List.mem_map.1 hb
      exact hall _
    rw [copyOver]
    by_cases hne : path = []
    · rw [if_pos hne]
      refine ⟨0, _, rfl, ?_⟩
      rcases hstale with hall | hlong
      · exact hread _ _ hall
      · rw [hne] at hlong
        cases hlong
    · rw [if_neg hne]
      have hnul : NoNul (path.take pathSize ++ stale.readBytes (path.take pathSize).length
          (pathSize - (path.take pathSize).length)) := by
        refine noNul_append (hpath.mono (List.take_subset _ _)) ?_
        rcases hstale with hall | hlong
        · exact hread _ _ hall
        · rw [List.length_take, Nat.min_eq_left hlong, Nat.sub_self]
          simp [ByteMem.readBytes, NoNul]
      obtain ⟨a, t, hat⟩ : ∃ a t, path.take pathSize ++ stale.readBytes (path.take pathSize).length
          (pathSize - (path.take pathSize).length) = a :: t := by
        refine List.exists_cons_of_ne_nil (List.append_ne_nil_of_left_ne_nil ?_ _)
        simpa [pathSize] using hne
      rw [hat] at hnul
      exact ⟨a, t, hat, hnul.of_cons.2⟩
  rw [splitCopy, ht, strrchr_eq_none hnul]
  rfl

/-- The directory that `get_parent_dir` copies out of a path in cleared buffers. -/
theorem getParentDir_eq {pre name : List UInt8} (hpath : NoNul (pre ++ slash :: name)) (hname : slash ∉ name)
    (hlen : (pre ++ slash :: name).length < pathSize) :
    getParentDir (fun _ => 0) (fun _ => 0) (pre ++ slash :: name) = some (if pre = [] then [slash] else pre) := by
  obtain ⟨n, hn, hcopy⟩ := copyOver_zeros hlen
  have hlast := strrchr_last hpath hname (List.replicate n 0) 0 none
  have hstring := cstr_append_zero hpath (List.replicate n 0)
  rw [getParentDir, splitCopy, hcopy]
  simp only [Option.bind_eq_bind, hlast, Option.bind_some, Nat.zero_add, hstring, List.take_left]
  rw [List.length_append, List.length_cons] at hlen
  by_cases hpre : pre = []
  · rw [if_pos hpre]
    exact bufferString_copyOver_zero (by simp [NoNul, slash]) (by simp) (by simp [pathSize]) rfl
  · rw [if_neg hpre]
    exact bufferString_copyOver_zero (hpath.mono (List.subset_append_left _ _)) hpre (by omega) rfl

/-- The name that `get_base_name_with_len` copies. -/
theorem getBaseNameWithLen_eq {pre name : List UInt8} (hpath : NoNul (pre ++ slash :: name)) (hname : slash ∉ name)
    (hlen : (pre ++ slash :: name).length < pathSize) (hne : name ≠ []) (hshort : name.length ≤ Fat.filenameSize) :
    getBaseNameWithLen (fun _ => 0) (fun _ => 0) (pre ++ slash :: name) = some name := by
  obtain ⟨n, hn, hcopy⟩ := copyOver_zeros hlen
  have hlast := strrchr_last hpath hname (List.replicate n 0) 0 none
  have hnul : NoNul name := hpath.mono fun b hb => by simp [hb]
  have hdrop : (pre ++ slash :: name ++ 0 :: List.replicate n 0).drop (pre.length + 1) =
      name ++ 0 :: List.replicate n 0 := by
    rw [List.append_assoc, List.drop_append, List.drop_of_length_le (by omega)]
    simp
  have hbase : bufferString (name ++ 0 :: List.replicate n 0) = some name := by
    rw [bufferString_append hnul, bufferString_zero, Option.map_some, List.append_nil]
  rw [getBaseNameWithLen, splitCopy, hcopy]
  simp only [Option.bind_eq_bind, hlast, Option.bind_some, Nat.zero_add, hdrop, hbase]
  rw [if_neg (by omega)]
  exact bufferString_copyOver_zero hnul hne (by omega) rfl

end DBolOS.Vfs
