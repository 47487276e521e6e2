import DBolOS.Fat.Loader
import DBolOS.Fat.Resolve
import DBolOS.Strings

/-!
# Splitting paths

`get_parent_dir` and `get_base_name` cut a path at its last slash, in the kernel and in the loader.  The two differ on a
path that ends with its last slash: there the kernel's `strcpy` reads behind the copy, and whatever it finds is no name.
-/

namespace DBolOS

namespace Fat

/-! ### The last slash -/

/-- A string has no slash, or a last one. -/
theorem lastSlash_cases (path : List UInt8) :
    slash ∉ path ∨ ∃ pre name, path = pre ++ slash :: name ∧ slash ∉ name := lastIndex_cases slash path

/-! ### Legal names -/

/-- What `check_file_name` accepts. -/
theorem checkFileName_spec {name : List UInt8} (h : checkFileName name) :
    NoNul name ∧ slash ∉ name ∧ name ≠ [] ∧ name ≠ [dot] ∧ name ≠ [dot, dot] ∧ name ≠ [tilde] := by
  simp only [checkFileName, Bool.and_eq_true, List.all_eq_true, decide_eq_true_eq] at h
  obtain ⟨⟨⟨⟨hall, hnil⟩, hdot⟩, hdots⟩, htilde⟩ := h
  refine ⟨?_, ?_, hnil, hdot, hdots, htilde⟩
  · rintro b hb rfl
    exact absurd (hall 0 hb) (by decide)
  · intro hmem
    exact absurd (hall slash hmem) (by decide)

private theorem toList_nameOf {s : List UInt8} (hlen : s.length ≤ 11) :
    (DirEntry.nameOf s).toList = s ++ List.replicate (11 - s.length) 0 := by
  apply List.ext_getElem
  · simp
    omega
  · intro i h1 h2
    rw [Vector.length_toList] at h1
    simp only [DirEntry.nameOf, Vector.getElem_toList, Vector.getElem_ofFn, List.getD_eq_getElem?_getD]
    by_cases hi : i < s.length
    · rw [List.getElem?_eq_getElem hi, List.getElem_append_left hi]
      rfl
    · rw [List.getElem?_eq_none (Nat.not_lt.1 hi), List.getElem_append_right (Nat.not_lt.1 hi), List.getElem_replicate]
      rfl

/-- The name of a record whose field was filled with a string. -/
theorem nameStr_nameOf {e : DirEntry} {s : List UInt8} (hs : NoNul s) (hlen : s.length ≤ 11)
    (he : e.name = DirEntry.nameOf s) : e.nameStr = s := by
  rw [DirEntry.nameStr, he, toList_nameOf hlen]
  rcases Nat.eq_zero_or_pos (11 - s.length) with h0 | hpos
  · rw [h0, List.replicate_zero, List.append_nil, cstr_of_noNul hs]
  · obtain ⟨k, hk⟩ := Nat.exists_eq_succ_of_ne_zero hpos.ne'
    rw [hk, List.replicate_succ, cstr_append_zero hs]

theorem cstr_subName {s : List UInt8} (hs : NoNul s) (hlen : s.length ≤ 11) : cstr (subName s) = s := by
  rw [subName_eq hlen, cstr_append_zero hs]

/-! ### The kernel -/

theorem splitPath_eq {stale : ByteMem} {path : List UInt8} {o : Option Nat} (hnul : NoNul path) (hne : path ≠ [])
    (ho : ∀ t, strrchr slash (path ++ 0 :: t) 0 none = some o) :
    splitPath stale path = if pathCopySize ≤ path.length then none else
      some (path ++ 0 :: stale.readBytes (path.length + 1) (pathCopySize - (path.length + 1)), o) := by
  have hcopy := strcpy_eq hnul hne []
  rw [splitPath, hcopy]
  simp only [Option.bind_eq_bind, Option.bind_some, List.length_append, List.length_singleton]
  by_cases hlong : pathCopySize ≤ path.length
  · rw [if_pos (by omega), if_pos hlong]
  · rw [if_neg (by omega), if_neg hlong, List.append_assoc, List.singleton_append, ho]
    rfl

theorem getParentDir_slash {stale : ByteMem} {pre name : List UInt8} (hnul : NoNul (pre ++ slash :: name))
    (hname : slash ∉ name) :
    getParentDir stale (pre ++ slash :: name) =
      if pathCopySize ≤ (pre ++ slash :: name).length then none else some (if pre = [] then [slash] else pre) := by
  have hsplit := @splitPath_eq stale _ _ hnul (by simp) fun t => by
    rw [strrchr_last hnul hname t 0 none, Nat.zero_add]
  rw [getParentDir, hsplit]
  by_cases hlong : pathCopySize ≤ (pre ++ slash :: name).length
  · rw [if_pos hlong, if_pos hlong]
    rfl
  · rw [if_neg hlong, if_neg hlong]
    simp only [Option.bind_eq_bind, Option.bind_some, cstr_append_zero hnul, List.take_left]

theorem getParentDir_of_not_mem {stale : ByteMem} {path : List UInt8} (hnul : NoNul path) (hne : path ≠ [])
    (hno : slash ∉ path) :
    getParentDir stale path = if pathCopySize ≤ path.length then none else some path := by
  have hsplit := @splitPath_eq stale _ _ hnul hne fun t => strrchr_absent hnul hne hno t 0 none
  rw [getParentDir, hsplit]
  by_cases hlong : pathCopySize ≤ path.length
  · rw [if_pos hlong, if_pos hlong]
    rfl
  · rw [if_neg hlong, if_neg hlong]
    simp only [Option.bind_eq_bind, Option.bind_some, cstr_append_zero hnul, if_neg hne]

private theorem padded_eq (name : List UInt8) :
    (if filenameSize + 1 < (name ++ [0]).length then (none : Option (List UInt8))
      else some (name ++ [0] ++ List.replicate (filenameSize + 1 - (name ++ [0]).length) 0)) =
      if filenameSize < name.length then none else some (subName name) := by
  rw [List.length_append, List.length_singleton]
  by_cases hlong : filenameSize < name.length
  · rw [if_pos (by omega), if_pos hlong]
  · have hle : name.length ≤ 11 := Nat.not_lt.1 hlong
    rw [if_neg (by omega), if_neg hlong, subName_eq hle, List.append_assoc, List.singleton_append]
    congr 4
    rw [filenameSize]
    omega

theorem getBaseName_slash {stale : ByteMem} {pre name : List UInt8} (hnul : NoNul (pre ++ slash :: name))
    (hname : slash ∉ name) (hne : name ≠ []) :
    getBaseName stale (pre ++ slash :: name) =
      if pathCopySize ≤ (pre ++ slash :: name).length ∨ filenameSize < name.length then none
      else some (subName name) := by
  have hsplit := @splitPath_eq stale _ _ hnul (by simp) fun t => by
    rw [strrchr_last hnul hname t 0 none, Nat.zero_add]
  rw [getBaseName, hsplit]
  by_cases hlong : pathCopySize ≤ (pre ++ slash :: name).length
  · rw [if_pos hlong, if_pos (.inl hlong)]
    rfl
  · have hdrop : ∀ t, (pre ++ slash :: name ++ 0 :: t).drop (pre.length + 1) = name ++ 0 :: t := by
      intro t
      rw [List.append_assoc, ← List.drop_drop, List.drop_left]
      rfl
    have hcopy := strcpy_eq (hnul.mono (by simp) : NoNul name) hne
    rw [if_neg hlong]
    simp only [Option.bind_eq_bind, Option.bind_some, hdrop, hcopy, hlong, false_or]
    exact padded_eq name

/-- A path that ends with its last slash has no base name. -/
theorem getBaseName_nil {stale : ByteMem} {pre b : List UInt8} (hnul : NoNul (pre ++ [slash]))
    (h : getBaseName stale (pre ++ [slash]) = some b) : cstr b = [] := by
  have hsplit := @splitPath_eq stale _ _ hnul (by simp) fun t => by
    rw [strrchr_last hnul (by simp) t 0 none, Nat.zero_add]
  rw [getBaseName, hsplit] at h
  split at h
  · cases h
  · have hdrop : ∀ t, (pre ++ [slash] ++ 0 :: t).drop (pre.length + 1) = 0 :: t := by
      intro t
      rw [List.append_assoc, ← List.drop_drop, List.drop_left]
      rfl
    simp only [Option.bind_eq_bind, Option.bind_some, hdrop, Option.bind_eq_some_iff] at h
    obtain ⟨name, hcopy, h⟩ := h
    split at h
    · cases h
    · obtain ⟨u, rfl⟩ := head_strcpy_zero hcopy
      cases h
      simp [cstr]

theorem getBaseName_of_not_mem {stale : ByteMem} {path : List UInt8} (hnul : NoNul path) (hne : path ≠ [])
    (hno : slash ∉ path) :
    getBaseName stale path =
      if pathCopySize ≤ path.length ∨ filenameSize < path.length then none else some (subName path) := by
  have hsplit := @splitPath_eq stale _ _ hnul hne fun t => strrchr_absent hnul hne hno t 0 none
  rw [getBaseName, hsplit]
  by_cases hlong : pathCopySize ≤ path.length
  · rw [if_pos hlong, if_pos (.inl hlong)]
    rfl
  · have hcopy := strcpy_eq hnul hne
    rw [if_neg hlong]
    simp only [Option.bind_eq_bind, Option.bind_some, hcopy, hlong, false_or]
    exact padded_eq path

/-! ### The loader -/

namespace Loader

private theorem strcpy_eq {s : List UInt8} (hs : NoNul s) (t : List UInt8) :
    strcpy (s ++ 0 :: t) = some (s ++ [0]) := by
  induction s with
  | nil => simp [strcpy]
  | cons b s ih =>
    obtain ⟨hb, hs⟩ := hs.of_cons
    simp [strcpy, hb, ih hs]

private theorem strrchr_absent {c : UInt8} {s : List UInt8} (hs : NoNul s) (hc : c ∉ s) (t : List UInt8) (i : Nat)
    (ret : Option Nat) : strrchr c (s ++ 0 :: t) i ret = some ret := by
  induction s generalizing i with
  | nil => simp [strrchr]
  | cons b s ih =>
    obtain ⟨hb, hs⟩ := hs.of_cons
    rw [List.mem_cons, not_or] at hc
    simp [strrchr, hb, Ne.symm hc.1, ih hs hc.2]

private theorem strrchr_last {c : UInt8} {pre name : List UInt8} (hs : NoNul (pre ++ c :: name)) (hc : c ∉ name)
    (t : List UInt8) (i : Nat) (ret : Option Nat) :
    strrchr c (pre ++ c :: name ++ 0 :: t) i ret = some (some (i + pre.length)) := by
  induction pre generalizing i ret with
  | nil =>
    obtain ⟨hc0, hname⟩ := hs.of_cons
    simp [strrchr, hc0, strrchr_absent hname hc]
  | cons b pre ih =>
    obtain ⟨hb, htail⟩ := hs.of_cons
    rw [List.cons_append, List.cons_append, strrchr, if_neg hb, ih htail, List.length_cons, Nat.add_right_comm,
      Nat.add_assoc]

private theorem splitPath_eq {path : List UInt8} {o : Option Nat} (hnul : NoNul path)
    (ho : ∀ t, strrchr slash (path ++ 0 :: t) 0 none = some o) :
    splitPath path = if pathCopySize ≤ path.length then none else some (path ++ [0], o) := by
  rw [splitPath, strcpy_eq hnul []]
  simp only [Option.bind_eq_bind, Option.bind_some, List.length_append, List.length_singleton]
  by_cases hlong : pathCopySize ≤ path.length
  · rw [if_pos (by omega), if_pos hlong]
  · rw [if_neg (by omega), if_neg hlong, ho]
    rfl

theorem getParentDir_slash {pre name : List UInt8} (hnul : NoNul (pre ++ slash :: name)) (hname : slash ∉ name) :
    getParentDir (pre ++ slash :: name) =
      if pathCopySize ≤ (pre ++ slash :: name).length then none else some (if pre = [] then [slash] else pre) := by
  have hsplit := splitPath_eq hnul fun t => by rw [strrchr_last hnul hname t 0 none, Nat.zero_add]
  rw [getParentDir, hsplit]
  by_cases hlong : pathCopySize ≤ (pre ++ slash :: name).length
  · rw [if_pos hlong, if_pos hlong]
    rfl
  · rw [if_neg hlong, if_neg hlong]
    simp only [Option.bind_eq_bind, Option.bind_some, cstr_append_zero hnul, List.take_left]

theorem getBaseName_slash {pre name : List UInt8} (hnul : NoNul (pre ++ slash :: name)) (hname : slash ∉ name) :
    getBaseName (pre ++ slash :: name) =
      if pathCopySize ≤ (pre ++ slash :: name).length ∨ filenameSize < name.length then none
      else some (subName name) := by
  have hsplit := splitPath_eq hnul fun t => by rw [strrchr_last hnul hname t 0 none, Nat.zero_add]
  rw [getBaseName, hsplit]
  by_cases hlong : pathCopySize ≤ (pre ++ slash :: name).length
  · rw [if_pos hlong, if_pos (.inl hlong)]
    rfl
  · have hdrop : (pre ++ slash :: name ++ [0]).drop (pre.length + 1) = name ++ [0] := by
      rw [List.append_assoc, ← List.drop_drop, List.drop_left]
      rfl
    have hcopy := strcpy_eq (hnul.mono (by simp) : NoNul name) []
    rw [if_neg hlong]
    simp only [Option.bind_eq_bind, Option.bind_some, hdrop, hcopy, hlong, false_or]
    exact padded_eq name

end Loader

end Fat

end DBolOS
