import DBolOS.Fat.Calls

/-!
# What path resolution finds

The index loop of `fat_find_dir_entry_from_path` is a walk over the segments of the path (`resolveFrom_eq_walk`), and
its lookups compare C strings.  Against it stands the meaning of a path: its non-empty components name entries, each
in the directory before it (`Outcome`).  The two agree exactly on the plain paths (`resolution_right_iff`).
-/

namespace DBolOS.Fat

/-! ### Names of records -/

namespace DirEntry

/-- The name of a record: the bytes of the field before the first zero. -/
def nameStr (e : DirEntry) : List UInt8 := cstr e.name.toList

theorem length_nameStr_le (e : DirEntry) : e.nameStr.length ≤ 11 := by
  have := (List.takeWhile_prefix (· ≠ 0) (l := e.name.toList)).length_le
  simpa [nameStr, cstr] using this

theorem noNul_nameStr (e : DirEntry) : NoNul e.nameStr := noNul_cstr _

/-- The bytes of a record after the name start with the attribute. -/
theorem exists_toBytes (e : DirEntry) : ∃ u, e.toBytes = e.name.toList ++ e.attr :: u := ⟨_, rfl⟩

/-- A string before a zero at the head of a record: it is the name, and one of 11 bytes is followed by the
attribute. -/
theorem toBytes_eq_append_iff {e : DirEntry} {s : List UInt8} (hs : NoNul s) (hlen : s.length ≤ 11) :
    (∃ u, e.toBytes = s ++ 0 :: u) ↔ e.nameStr = s ∧ (s.length = 11 → e.attr = 0) := by
  obtain ⟨rest, hrest⟩ := e.exists_toBytes
  have hname : e.name.toList.length = 11 := by simp
  rw [hrest]
  rcases Nat.lt_or_ge s.length 11 with hlt | hge
  · have hfield : (∃ u, e.name.toList ++ e.attr :: rest = s ++ 0 :: u) ↔ ∃ u, e.name.toList = s ++ 0 :: u := by
      constructor
      · rintro ⟨u, hu⟩
        have htake := congrArg (List.take 11) hu
        rw [List.take_left' hname, List.take_append, List.take_of_length_le hlt.le] at htake
        obtain ⟨k, hk⟩ := Nat.exists_eq_succ_of_ne_zero (Nat.sub_ne_zero_of_lt hlt)
        rw [hk, List.take_succ_cons] at htake
        exact ⟨_, htake⟩
      · rintro ⟨u, hu⟩
        exact ⟨u ++ e.attr :: rest, by rw [hu]; simp⟩
    rw [hfield]
    constructor
    · rintro ⟨u, hu⟩
      refine ⟨?_, by omega⟩
      rw [nameStr, hu, cstr_append_zero hs]
    · rintro ⟨rfl, _⟩
      rcases cstr_eq_or_append e.name.toList with h | h
      · rw [nameStr, h, hname] at hlt
        omega
      · exact h
  · have hs11 : s.length = 11 := by omega
    have hfull : e.nameStr = s ↔ e.name.toList = s := by
      constructor
      · intro h
        have hhead : e.nameStr <+: e.name.toList := List.takeWhile_prefix _
        rw [← h]
        exact (hhead.eq_of_length (by rw [h, hs11, hname])).symm
      · intro h
        rw [nameStr, h, cstr_of_noNul hs]
    rw [hfull]
    constructor
    · rintro ⟨u, hu⟩
      obtain ⟨hn, ha⟩ := List.append_inj hu (by rw [hname, hs11])
      exact ⟨hn, fun _ => (List.cons.inj ha).1⟩
    · rintro ⟨hn, ha⟩
      exact ⟨rest, by rw [hn, ha hs11]⟩

end DirEntry

theorem subName_eq {s : List UInt8} (h : s.length ≤ 11) : subName s = s ++ 0 :: List.replicate (11 - s.length) 0 := by
  rw [subName, filenameSize, Nat.succ_sub h, List.replicate_succ]

/-- The lookup of a component: records of its name, those of 11 bytes with no attribute. -/
theorem nameMatches_subName {s : List UInt8} (hs : NoNul s) (hlen : s.length ≤ 11) (e : DirEntry) :
    Volume.nameMatches (subName s) e = some (decide (e.nameStr = s ∧ (s.length = 11 → e.attr = 0))) := by
  have hrecord : s.length < e.toBytes.length := by
    rw [DirEntry.length_toBytes]
    omega
  obtain ⟨r, hr, hiff⟩ := strncmp_eq_zero_iff (List.replicate (11 - s.length) 0) hs hlen hrecord
  rw [DirEntry.toBytes_eq_append_iff hs hlen] at hiff
  rw [Volume.nameMatches, subName_eq hlen, filenameSize, hr, Option.map_eq_map, Option.map_some, Option.some.injEq,
    Bool.eq_iff_iff, beq_iff_eq, decide_eq_true_iff]
  exact hiff

/-! ### Segments of a path -/

/-- The string without one slash at its end. -/
def dropSlash (s : List UInt8) : List UInt8 := if s.getLast? = some slash then s.dropLast else s

/-- What the loop cuts out of the rest of a path: the pieces between slashes, a single slash at the end ignored. -/
def segments (s : List UInt8) : List (List UInt8) := (dropSlash s).splitOn slash

theorem nameLen_eq (n : Nat) (s : List UInt8) : nameLen n s = min n (s.takeWhile (· ≠ slash)).length := by
  induction n generalizing s with
  | zero => simp [nameLen]
  | succ n ih =>
    cases s with
    | nil => simp [nameLen]
    | cons b s =>
      by_cases hb : b = slash
      · simp [nameLen, hb]
      · simp [nameLen, hb, ih]

/-- A string ends with its first segment, with a slash after it, or goes on behind that slash. -/
theorem segment_cases (t : List UInt8) :
    ∃ s, slash ∉ s ∧ s = t.takeWhile (· ≠ slash) ∧
      ((t = s ∨ t = s ++ [slash]) ∨ ∃ t', t' ≠ [] ∧ t = s ++ slash :: t') := by
  refine ⟨_, ?_, rfl, ?_⟩
  · intro h
    have := List.mem_takeWhile_imp h
    simp at this
  · induction t with
    | nil => exact .inl (.inl rfl)
    | cons b t ih =>
      by_cases hb : b = slash
      · subst hb
        rw [List.takeWhile_cons_of_neg (by simp)]
        cases t with
        | nil => exact .inl (.inr rfl)
        | cons c t => exact .inr ⟨c :: t, by simp, rfl⟩
      · rw [List.takeWhile_cons_of_pos (by simpa using hb)]
        rcases ih with (h | h) | ⟨t', ht', h⟩
        · exact .inl (.inl (congrArg (b :: ·) h))
        · exact .inl (.inr (congrArg (b :: ·) h))
        · exact .inr ⟨t', ht', congrArg (b :: ·) h⟩

theorem segments_last {s : List UInt8} (hs : slash ∉ s) : segments s = [s] ∧ segments (s ++ [slash]) = [s] := by
  constructor
  · rw [segments, dropSlash, if_neg, List.splitOn_eq_singleton hs]
    exact fun h => hs (List.mem_of_getLast? h)
  · rw [segments, dropSlash, List.getLast?_concat, if_pos rfl, List.dropLast_concat, List.splitOn_eq_singleton hs]

theorem segments_append {s t : List UInt8} (hs : slash ∉ s) (ht : t ≠ []) :
    segments (s ++ slash :: t) = s :: segments t := by
  have hlast : (s ++ slash :: t).getLast? = t.getLast? := by
    rw [List.getLast?_append_of_ne_nil _ (by simp), List.getLast?_cons_of_ne_nil ht]
  rw [segments, segments, dropSlash, dropSlash, hlast]
  split
  · rw [List.dropLast_append_of_ne_nil (by simp), List.dropLast_cons_of_ne_nil ht,
      List.splitOn_append_cons_self_of_not_mem hs]
  · rw [List.splitOn_append_cons_self_of_not_mem hs]

theorem subset_of_mem_splitOn {s t : List UInt8} (h : s ∈ t.splitOn slash) : s ⊆ t := by
  induction t generalizing s with
  | nil => simpa using h
  | cons b t ih =>
    rw [List.splitOn_cons_eq_if_modifyHead] at h
    split at h
    · rcases List.mem_cons.1 h with rfl | h
      · exact List.nil_subset _
      · exact List.subset_cons_of_subset b (ih h)
    · obtain ⟨x, xs, hx⟩ := List.exists_cons_of_ne_nil (List.splitOn_ne_nil slash t)
      rw [hx, List.modifyHead_cons] at h
      rcases List.mem_cons.1 h with rfl | h
      · exact List.cons_subset_cons b (ih (by rw [hx]; simp))
      · exact List.subset_cons_of_subset b (ih (by rw [hx]; simp [h]))

private theorem subset_of_mem_segments {s t : List UInt8} (h : s ∈ segments t) : s ⊆ t := by
  refine List.Subset.trans (subset_of_mem_splitOn h) ?_
  unfold dropSlash
  split
  · exact List.dropLast_subset t
  · exact List.Subset.refl t

/-- The slash that is ignored separates no component. -/
theorem filter_segments (t : List UInt8) : (segments t).filter (· ≠ []) = (t.splitOn slash).filter (· ≠ []) := by
  unfold segments dropSlash
  split
  · rename_i hlast
    obtain ⟨u, rfl⟩ : ∃ u, t = u ++ [slash] := ⟨_, (List.dropLast_append_getLast? _ hlast).symm⟩
    rw [List.dropLast_concat, List.splitOn_append_cons_self, List.filter_append, List.splitOn_nil]
    simp
  · rfl

theorem segments_ne_nil (t : List UInt8) : segments t ≠ [] := List.splitOn_ne_nil _ _

/-! ### The walk -/

/-- The lookups of path resolution, segment by segment.  The last one is not preceded by a check of the directory. -/
def walk (v : Volume) : DirEntry → List (List UInt8) → Option (Except Int DirEntry)
  | d, [] => some (.ok d)
  | d, s :: rest =>
    if filenameSize < s.length then some (.error DIR_NAME_EXCEEDS_LENGTH)
    else if rest ≠ [] ∧ !d.isDirectory then some (.error DIR_NOT_FOUND)
    else do
      match ← v.fatFindDirEntry (subName s) d with
      | none => some (.error DIR_NOT_FOUND)
      | some e => walk v e rest

/-- What an iteration does with a segment, the `last` one or one before the index `next`. -/
def segmentStep (v : Volume) (d : DirEntry) (s : List UInt8) (last : Bool) (next : Nat) :
    Option (Except Int DirEntry ⊕ Nat × DirEntry) :=
  if filenameSize < s.length then some (.inl (.error DIR_NAME_EXCEEDS_LENGTH))
  else if !last && !d.isDirectory then some (.inl (.error DIR_NOT_FOUND))
  else (v.fatFindDirEntry (subName s) d).bind fun
    | none => some (.inl (.error DIR_NOT_FOUND))
    | some e => some (if last then .inl (.ok e) else .inr (next, e))

private theorem resolveStep_segment (v : Volume) {pre t s : List UInt8} (d : DirEntry) (hpre : pre ≠ [])
    (hs : s = t.takeWhile (· ≠ slash)) :
    resolveStep v (pre ++ t) pre.length d =
      segmentStep v d s (decide (t.length ≤ s.length + 1)) (pre.length + s.length + 1) := by
  have hdrop : (pre ++ t).drop pre.length = t := List.drop_left
  have h0 : pre.length ≠ 0 := by simpa using hpre
  simp only [resolveStep, segmentStep, hdrop, nameLen_eq, ← hs]
  by_cases hlong : filenameSize < s.length
  · have hmin : filenameSize < min (filenameSize + 1) s.length := by omega
    simp only [hmin, hlong, ↓reduceIte]
  · have hmin : min (filenameSize + 1) s.length = s.length := by omega
    have htake : t.take s.length = s := by
      have hhead : s <+: t := hs ▸ List.takeWhile_prefix _
      exact (List.prefix_iff_eq_take.1 hhead).symm
    have hlast : (pre ++ t).length ≤ pre.length + s.length + 1 ↔ t.length ≤ s.length + 1 := by
      rw [List.length_append]
      omega
    simp only [hmin, hlong, ↓reduceIte, h0, htake, hlast, FILE_NOT_FOUND, DIR_NOT_FOUND, ite_self]
    cases v.fatFindDirEntry (subName s) d with
    | none => by_cases hend : t.length ≤ s.length + 1 <;> simp [hend]
    | some found => cases found <;> by_cases hend : t.length ≤ s.length + 1 <;> simp [hend]

/-- The loop goes on behind the step as the walk does. -/
private theorem segmentStep_bind (v : Volume) (d : DirEntry) (s : List UInt8) (rest : List (List UInt8)) (next : Nat)
    {k : Nat → DirEntry → Option (Except Int DirEntry)} (hk : ∀ e, rest ≠ [] → k next e = walk v e rest) :
    ((segmentStep v d s rest.isEmpty next).bind fun
      | .inl result => some result
      | .inr (index, entry) => k index entry) = walk v d (s :: rest) := by
  rw [walk, segmentStep]
  by_cases hlong : filenameSize < s.length
  · simp only [hlong, ↓reduceIte, Option.bind_some]
  · simp only [hlong, ↓reduceIte]
    have hdir : (!rest.isEmpty && !d.isDirectory) = true ↔ rest ≠ [] ∧ (!d.isDirectory) = true := by simp
    by_cases hd : rest ≠ [] ∧ (!d.isDirectory) = true
    · rw [if_pos (hdir.2 hd), if_pos hd, Option.bind_some]
    · rw [if_neg (fun h => hd (hdir.1 h)), if_neg hd]
      cases v.fatFindDirEntry (subName s) d with
      | none => rfl
      | some r =>
        cases r with
        | none => rfl
        | some e =>
          cases rest with
          | nil => rfl
          | cons s' rest => exact hk e (by simp)

/-- The loop walks the segments. -/
theorem resolveFrom_eq_walk (v : Volume) {pre t : List UInt8} (d : DirEntry) {n : Nat} (hpre : pre ≠ [])
    (ht : t ≠ []) (hn : t.length ≤ n) : resolveFrom v (pre ++ t) n pre.length d = walk v d (segments t) := by
  induction n generalizing pre t d with
  | zero => exact absurd (List.eq_nil_of_length_eq_zero (by omega)) ht
  | succ n ih =>
    obtain ⟨s, hslash, hs, hcases⟩ := segment_cases t
    rw [resolveFrom, resolveStep_segment v d hpre hs]
    rcases hcases with hend | ⟨t', ht', h⟩
    · have hlast : t.length ≤ s.length + 1 ∧ segments t = [s] := by
        rcases hend with h | h
        · exact ⟨by rw [← h]; omega, by rw [h]; exact (segments_last hslash).1⟩
        · exact ⟨by rw [h]; simp, by rw [h]; exact (segments_last hslash).2⟩
      rw [hlast.2, decide_eq_true hlast.1]
      exact segmentStep_bind v d s [] _ fun _ h => absurd rfl h
    · have hlen : s.length + t'.length + 1 = t.length := by
        rw [h, List.length_append, List.length_cons]
        omega
      have hpos := List.length_pos_of_ne_nil ht'
      have hnext : pre.length + s.length + 1 = (pre ++ s ++ [slash]).length := by simp [Nat.add_assoc]
      have hpath : pre ++ t = pre ++ s ++ [slash] ++ t' := by rw [h]; simp
      have hmore : (segments t').isEmpty = decide (t.length ≤ s.length + 1) := by
        rw [decide_eq_false (by omega), List.isEmpty_eq_false_iff]
        exact segments_ne_nil t'
      rw [show segments t = s :: segments t' by rw [h, segments_append hslash ht'], ← hmore]
      refine segmentStep_bind v d s (segments t') _ fun e _ => ?_
      rw [hpath, hnext]
      exact ih e (by simp) ht' (by omega)

/-- The first iteration of the loop on a path with a leading slash. -/
private theorem resolveStep_slash (v : Volume) (t : List UInt8) (d : DirEntry) :
    resolveStep v (slash :: t) 0 d = some (.inr (1, d)) := by
  simp [resolveStep, nameLen, filenameSize]

/-- Resolution of a path with a leading slash. -/
theorem fatFindDirEntryFromPath_slash (v : Volume) {t : List UInt8} (ht : t ≠ []) :
    fatFindDirEntryFromPath v (slash :: t) = walk v (rootDir v.fs) (segments t) := by
  have hne : ¬ (slash :: t = [tilde, slash] ∨ slash :: t = [slash] ∨ slash :: t = [dot, slash]) := by
    simp [slash, tilde, dot, ht]
  rw [fatFindDirEntryFromPath, if_neg hne, resolveFrom, resolveStep_slash]
  have hn : t.length ≤ (slash :: t).length + 1 := by
    rw [List.length_cons]
    omega
  exact resolveFrom_eq_walk v (rootDir v.fs) (List.cons_ne_nil slash []) ht hn

theorem fatFindDirEntryFromPath_root (v : Volume) : fatFindDirEntryFromPath v [slash] = some (.ok (rootDir v.fs)) := by
  simp [fatFindDirEntryFromPath]

/-! ### The meaning of a path -/

/-- Resolution fails because a name is missing or too long. -/
theorem resolveFrom_error {v : Volume} {path : List UInt8} {n start : Nat} {d : DirEntry} {err : Int}
    (h : resolveFrom v path n start d = some (.error err)) : err = DIR_NOT_FOUND ∨ err = DIR_NAME_EXCEEDS_LENGTH := by
  have hstep : ∀ start d err, resolveStep v path start d = some (.inl (.error err)) →
      err = DIR_NOT_FOUND ∨ err = DIR_NAME_EXCEEDS_LENGTH := by
    intro start d err h
    unfold resolveStep at h
    dsimp only at h
    split at h
    · cases h
      exact .inr rfl
    split at h
    · split at h
      · cases h
        exact .inl rfl
      · cases h
    split at h
    · obtain ⟨found, -, h⟩ := Option.bind_eq_some_iff.1 h
      cases found with
      | none =>
        cases h
        split <;> exact .inl rfl
      | some e => cases h
    split at h
    · cases h
      exact .inl rfl
    · obtain ⟨found, -, h⟩ := Option.bind_eq_some_iff.1 h
      cases found with
      | none =>
        cases h
        exact .inl rfl
      | some e => cases h
  induction n generalizing start d with
  | zero => cases h
  | succ n ih =>
    rw [resolveFrom] at h
    obtain ⟨r, hr, h⟩ := Option.bind_eq_some_iff.1 h
    cases r with
    | inl result =>
      cases h
      exact hstep _ _ _ hr
    | inr next => exact ih h

theorem fatFindDirEntryFromPath_codes {v : Volume} {path : List UInt8} {err : Int}
    (h : fatFindDirEntryFromPath v path = some (.error err)) : err = DIR_NOT_FOUND ∨ err = DIR_NAME_EXCEEDS_LENGTH := by
  rw [fatFindDirEntryFromPath] at h
  split at h
  · cases h
  · exact resolveFrom_error h

theorem fatFindDirEntryFromPath_error {v : Volume} {path : List UInt8} {err : Int}
    (h : fatFindDirEntryFromPath v path = some (.error err)) : err ≠ 0 := by
  rcases fatFindDirEntryFromPath_codes h with rfl | rfl
  · decide
  · decide

namespace Volume

/-- The first record with the given name in a directory. -/
def entryNamed (v : Volume) (name : List UInt8) (dir : DirEntry) : Option (Option DirEntry) :=
  (v.scanDir (fun e => some (decide (e.nameStr = name))) dir).map fun hit => hit.map Hit.entry

/-- What a list of names means from a directory on: each name is looked up in the directory before it. -/
inductive Outcome (v : Volume) : DirEntry → List (List UInt8) → Except Int DirEntry → Prop
  | found (d : DirEntry) : Outcome v d [] (.ok d)
  | next {d e : DirEntry} {name : List UInt8} {names : List (List UInt8)} {r : Except Int DirEntry}
      (hlen : name.length ≤ filenameSize) (hdir : d.isDirectory) (he : v.entryNamed name d = some (some e))
      (h : Outcome v e names r) : Outcome v d (name :: names) r
  | tooLong {d : DirEntry} {name : List UInt8} {names : List (List UInt8)} (hlen : filenameSize < name.length) :
      Outcome v d (name :: names) (.error DIR_NAME_EXCEEDS_LENGTH)
  | notDirectory {d : DirEntry} {name : List UInt8} {names : List (List UInt8)} (hlen : name.length ≤ filenameSize)
      (hdir : d.isDirectory = false) : Outcome v d (name :: names) (.error DIR_NOT_FOUND)
  | absent {d : DirEntry} {name : List UInt8} {names : List (List UInt8)} (hlen : name.length ≤ filenameSize)
      (hdir : d.isDirectory) (he : v.entryNamed name d = some none) : Outcome v d (name :: names) (.error DIR_NOT_FOUND)

end Volume

/-- The components of a path: its non-empty pieces between slashes. -/
def components (path : List UInt8) : List (List UInt8) := (path.splitOn slash).filter (· ≠ [])

/-- The states that the loop of `fat_find_dir_entry_from_path` passes through. -/
def Reached (v : Volume) (path : List UInt8) : Nat × DirEntry → Prop :=
  Relation.ReflTransGen (fun x y => resolveStep v path x.1 x.2 = some (.inr y)) (0, rootDir v.fs)

/-- The segment that the loop cuts out at an index. -/
def segmentAt (path : List UInt8) (index : Nat) : List UInt8 := (path.drop index).takeWhile (· ≠ slash)

/-- The loop looks the segment at `index` up in the directory `d`. -/
def LooksUp (path : List UInt8) (index : Nat) (d : DirEntry) : Prop :=
  index ≠ 0 ∧ (segmentAt path index).length ≤ filenameSize ∧
    (path.length ≤ index + (segmentAt path index).length + 1 ∨ d.isDirectory)

/-- Resolution of a path is right: the result is the meaning of its components, and every lookup made on the way is
that of a component in a directory and finds the record of that name. -/
def RightlyResolved (v : Volume) (path : List UInt8) : Prop :=
  (∃ r, fatFindDirEntryFromPath v path = some r ∧ v.Outcome (rootDir v.fs) (components path) r) ∧
    ∀ index d, path ≠ [slash] → Reached v path (index, d) → LooksUp path index d →
      segmentAt path index ≠ [] ∧ d.isDirectory ∧
        v.fatFindDirEntry (subName (segmentAt path index)) d = v.entryNamed (segmentAt path index) d

/-! ### Lookups made on the way -/

/-- The lookups of the walk are right. -/
private def LookupsRight (v : Volume) : DirEntry → List (List UInt8) → Prop
  | _, [] => True
  | d, s :: rest =>
    s.length ≤ filenameSize → (rest = [] ∨ d.isDirectory) →
      (s ≠ [] ∧ d.isDirectory ∧ v.fatFindDirEntry (subName s) d = v.entryNamed s d) ∧
        ∀ e, v.fatFindDirEntry (subName s) d = some (some e) → LookupsRight v e rest

private theorem segmentStep_eq_inr {v : Volume} {d : DirEntry} {s : List UInt8} {last : Bool} {next : Nat}
    {y : Nat × DirEntry} :
    segmentStep v d s last next = some (.inr y) ↔
      s.length ≤ filenameSize ∧ last = false ∧ d.isDirectory ∧ y.1 = next ∧
        v.fatFindDirEntry (subName s) d = some (some y.2) := by
  obtain ⟨i, e⟩ := y
  by_cases hlong : filenameSize < s.length
  · simp [segmentStep, hlong]
  have hshort : s.length ≤ filenameSize := by omega
  cases last <;> cases hdir : d.isDirectory <;> cases hfind : v.fatFindDirEntry (subName s) d with
  | none => simp [segmentStep, hlong, hdir, hfind]
  | some r => cases r <;> simp [segmentStep, hlong, hdir, hfind, hshort, eq_comm]

/-- The lookups of the loop from an index on are those of the walk. -/
private theorem lookupsRight_iff (v : Volume) {pre t : List UInt8} (d : DirEntry) (hpre : pre ≠ []) (ht : t ≠ []) :
    (∀ index e, Relation.ReflTransGen (fun x y => resolveStep v (pre ++ t) x.1 x.2 = some (.inr y)) (pre.length, d)
        (index, e) → LooksUp (pre ++ t) index e →
          segmentAt (pre ++ t) index ≠ [] ∧ e.isDirectory ∧
            v.fatFindDirEntry (subName (segmentAt (pre ++ t) index)) e =
              v.entryNamed (segmentAt (pre ++ t) index) e) ↔
      LookupsRight v d (segments t) := by
  induction hlen : t.length using Nat.strong_induction_on generalizing pre t d with
  | _ n ih =>
    obtain ⟨s, hslash, hs, hcases⟩ := segment_cases t
    have hseg : segmentAt (pre ++ t) pre.length = s := by rw [segmentAt, List.drop_left, hs]
    have h0 : pre.length ≠ 0 := by simpa using hpre
    obtain ⟨rest, hsegs, hlast⟩ : ∃ rest, segments t = s :: rest ∧ (rest = [] ↔ t.length ≤ s.length + 1) := by
      rcases hcases with (h | h) | ⟨t', ht', h⟩
      · exact ⟨[], by rw [h]; exact (segments_last hslash).1, by simp [← h]⟩
      · exact ⟨[], by rw [h]; exact (segments_last hslash).2, by simp [h]⟩
      · have := List.length_pos_of_ne_nil ht'
        refine ⟨segments t', by rw [h, segments_append hslash ht'], ?_⟩
        simp only [segments_ne_nil, h, List.length_append, List.length_cons, false_iff]
        omega
    have hlooks : LooksUp (pre ++ t) pre.length d ↔ s.length ≤ filenameSize ∧ (rest = [] ∨ d.isDirectory) := by
      have hlength : (pre ++ t).length ≤ pre.length + s.length + 1 ↔ t.length ≤ s.length + 1 := by
        rw [List.length_append]
        omega
      rw [LooksUp, hseg, hlast, hlength]
      simp only [h0, ne_eq, not_false_eq_true, true_and]
    have hstep : ∀ y, resolveStep v (pre ++ t) pre.length d = some (.inr y) ↔
        s.length ≤ filenameSize ∧ rest ≠ [] ∧ d.isDirectory ∧ y.1 = pre.length + s.length + 1 ∧
          v.fatFindDirEntry (subName s) d = some (some y.2) := by
      intro y
      rw [resolveStep_segment v d hpre hs, segmentStep_eq_inr, ne_eq, hlast, decide_eq_false_iff_not]
    -- what is reached behind the segment is reached from its record
    have hnext : ∀ e, rest ≠ [] → ((∀ index e', Relation.ReflTransGen
        (fun x y => resolveStep v (pre ++ t) x.1 x.2 = some (.inr y)) (pre.length + s.length + 1, e) (index, e') →
          LooksUp (pre ++ t) index e' → segmentAt (pre ++ t) index ≠ [] ∧ e'.isDirectory ∧
            v.fatFindDirEntry (subName (segmentAt (pre ++ t) index)) e' =
              v.entryNamed (segmentAt (pre ++ t) index) e') ↔ LookupsRight v e rest) := by
      intro e hrest
      rcases hcases with hend | ⟨t', ht', h⟩
      · refine absurd (hlast.2 ?_) hrest
        rcases hend with h | h
        · rw [← h]; omega
        · rw [h]; simp
      · have hrest' : rest = segments t' := by
          rw [h, segments_append hslash ht'] at hsegs
          exact (List.cons.inj hsegs).2.symm
        have hpath : pre ++ t = pre ++ s ++ [slash] ++ t' := by rw [h]; simp
        have hindex : pre.length + s.length + 1 = (pre ++ s ++ [slash]).length := by simp [Nat.add_assoc]
        have hlt : t'.length < n := by
          rw [← hlen, h, List.length_append, List.length_cons]
          omega
        rw [hpath, hindex, hrest']
        exact ih t'.length hlt e (by simp) ht' rfl
    rw [hsegs, LookupsRight]
    constructor
    · intro hall hshort hdir
      refine ⟨?_, ?_⟩
      · have := hall pre.length d Relation.ReflTransGen.refl (hlooks.2 ⟨hshort, hdir⟩)
        rwa [hseg] at this
      · intro e he
        by_cases hrest : rest = []
        · rw [hrest]
          trivial
        · refine (hnext e hrest).1 fun index e' hreach => hall index e' ?_
          refine Relation.ReflTransGen.head ((hstep (pre.length + s.length + 1, e)).2 ?_) hreach
          exact ⟨hshort, hrest, hdir.resolve_left hrest, rfl, he⟩
    · intro hright index e' hreach hlook
      rcases Relation.ReflTransGen.cases_head hreach with h | ⟨⟨i, e⟩, hy, hreach⟩
      · cases h
        obtain ⟨hshort, hdir⟩ := hlooks.1 hlook
        rw [hseg]
        exact (hright hshort hdir).1
      · obtain ⟨hshort, hrest, hdir, hi, he⟩ := (hstep (i, e)).1 hy
        simp only at hi he
        rw [hi] at hreach
        exact (hnext e hrest).2 ((hright hshort (.inr hdir)).2 e he) index e' hreach hlook

/-! ### Plain paths -/

/-- The segments `names` can be followed from `d`.  A segment that is looked up is not empty, is looked up in a directory
whose chain can be scanned for it, and names no record of 11 bytes and an attribute.  Behind a record that is no
directory empty segments may stand only before a component that is not too long. -/
def Plain (v : Volume) : DirEntry → List (List UInt8) → Prop
  | _, [] => True
  | d, s :: rest =>
    s.length ≤ filenameSize →
      if rest = [] ∨ d.isDirectory then
        s ≠ [] ∧ d.isDirectory ∧ ∃ r, v.entryNamed s d = some r ∧
          ∀ e, r = some e → (s.length = filenameSize → e.attr = 0) ∧ Plain v e rest
      else ∃ c names, (s :: rest).filter (· ≠ []) = c :: names ∧ c.length ≤ filenameSize

/-- Where the first record of a name has no attribute behind 11 bytes of name, the lookup is that of the name. -/
private theorem fatFindDirEntry_of_entryNamed {v : Volume} {s : List UInt8} {d : DirEntry} {r : Option DirEntry}
    (hs : NoNul s) (hlen : s.length ≤ filenameSize) (h : v.entryNamed s d = some r)
    (hattr : ∀ e, r = some e → s.length = filenameSize → e.attr = 0) :
    v.fatFindDirEntry (subName s) d = some r := by
  have htest : Volume.nameMatches (subName s) =
      fun e => some (decide (e.nameStr = s ∧ (s.length = filenameSize → e.attr = 0))) :=
    funext fun e => nameMatches_subName hs hlen e
  have himp : ∀ e : DirEntry, decide (e.nameStr = s ∧ (s.length = filenameSize → e.attr = 0)) = true →
      decide (e.nameStr = s) = true := by
    intro e he
    simp only [decide_eq_true_eq] at he ⊢
    exact he.1
  simp only [Volume.entryNamed, Option.map_eq_some_iff] at h
  obtain ⟨hit, hscan, rfl⟩ := h
  rw [Volume.fatFindDirEntry, htest]
  cases hit with
  | none => rw [Volume.scanDir_none_of_imp himp hscan]; rfl
  | some hit =>
    have hname := Volume.scanDir_eq_some hscan
    simp only [Option.some.injEq, decide_eq_true_eq] at hname
    rw [Volume.scanDir_some_of_imp himp hscan (decide_eq_true ⟨hname, hattr hit.entry rfl⟩)]
    rfl

/-- A record found by the lookup of a component has no attribute behind 11 bytes of name. -/
theorem attr_of_fatFindDirEntry {v : Volume} {s : List UInt8} {d e : DirEntry} (hs : NoNul s)
    (hlen : s.length ≤ filenameSize) (h : v.fatFindDirEntry (subName s) d = some (some e)) :
    e.nameStr = s ∧ (s.length = filenameSize → e.attr = 0) := by
  simp only [Volume.fatFindDirEntry, Option.bind_eq_bind, Option.bind_eq_some_iff, Option.some.injEq,
    Option.map_eq_some_iff] at h
  obtain ⟨_, hscan, hit, rfl, rfl⟩ := h
  have htest := Volume.scanDir_eq_some hscan
  rw [nameMatches_subName hs hlen, Option.some.injEq, decide_eq_true_eq] at htest
  exact htest

/-- Either the walk goes on with a lookup, or it stops before it. -/
private theorem lookup_iff {d : DirEntry} {rest : List (List UInt8)} :
    ¬ (rest ≠ [] ∧ (!d.isDirectory) = true) ↔ rest = [] ∨ d.isDirectory := by
  rw [not_and_or, not_not]
  simp

/-- A walk along plain segments gives the meaning of the components, by right lookups. -/
private theorem walk_of_plain {v : Volume} {d : DirEntry} {names : List (List UInt8)} (hnul : ∀ s ∈ names, NoNul s)
    (h : Plain v d names) :
    (∃ r, walk v d names = some r ∧ v.Outcome d (names.filter (· ≠ [])) r) ∧ LookupsRight v d names := by
  induction names generalizing d with
  | nil => exact ⟨⟨_, rfl, .found d⟩, trivial⟩
  | cons s rest ih =>
    rw [walk]
    by_cases hlong : filenameSize < s.length
    · have hs : s ≠ [] := by
        rintro rfl
        simp at hlong
      rw [if_pos hlong, List.filter_cons_of_pos (by simpa using hs)]
      exact ⟨⟨_, rfl, .tooLong hlong⟩, fun hshort => absurd hshort (Nat.not_le.2 hlong)⟩
    have hshort : s.length ≤ filenameSize := Nat.not_lt.1 hlong
    have hplain := h hshort
    rw [if_neg hlong]
    by_cases hdir : rest = [] ∨ d.isDirectory
    · rw [if_pos hdir] at hplain
      obtain ⟨hs, hd, r, hr, hnext⟩ := hplain
      have hfind := fatFindDirEntry_of_entryNamed (hnul s (by simp)) hshort hr fun e he hl => (hnext e he).1 hl
      rw [if_neg (lookup_iff.2 hdir), List.filter_cons_of_pos (by simpa using hs), hfind]
      cases r with
      | none =>
        refine ⟨⟨_, rfl, .absent hshort hd hr⟩, fun _ _ => ⟨⟨hs, hd, hfind.trans hr.symm⟩, fun e he => ?_⟩⟩
        rw [hfind] at he
        cases he
      | some e =>
        obtain ⟨⟨r', hwalk, hout⟩, hlook⟩ := ih (fun s hs => hnul s (by simp [hs])) (hnext e rfl).2
        refine ⟨⟨r', hwalk, .next hshort hd hr hout⟩, fun _ _ => ⟨⟨hs, hd, hfind.trans hr.symm⟩, fun e' he => ?_⟩⟩
        rw [hfind] at he
        cases he
        exact hlook
    · rw [if_neg hdir] at hplain
      obtain ⟨c, cs, hfilter, hc⟩ := hplain
      have hd : d.isDirectory = false := by
        by_contra hd
        exact hdir (.inr (by simpa using hd))
      rw [if_pos (not_not.1 (mt lookup_iff.1 hdir)), hfilter]
      exact ⟨⟨_, rfl, .notDirectory hc hd⟩, fun _ h => absurd h hdir⟩

/-- Where the walk gives the meaning of the components by right lookups, the segments are plain. -/
private theorem plain_of_walk {v : Volume} {d : DirEntry} {names : List (List UInt8)} {r : Except Int DirEntry}
    (hnul : ∀ s ∈ names, NoNul s) (hwalk : walk v d names = some r) (hout : v.Outcome d (names.filter (· ≠ [])) r)
    (hlook : LookupsRight v d names) : Plain v d names := by
  induction names generalizing d with
  | nil => trivial
  | cons s rest ih =>
    intro hshort
    rw [walk, if_neg (Nat.not_lt.2 hshort)] at hwalk
    split
    · rename_i hdir
      obtain ⟨⟨hs, hd, hfind⟩, hnext⟩ := hlook hshort hdir
      rw [if_neg (lookup_iff.2 hdir)] at hwalk
      rw [List.filter_cons_of_pos (by simpa using hs)] at hout
      simp only [Option.bind_eq_bind, Option.bind_eq_some_iff] at hwalk
      obtain ⟨found, hfound, hwalk⟩ := hwalk
      refine ⟨hs, hd, found, hfind ▸ hfound, fun e he => ?_⟩
      subst he
      refine ⟨(attr_of_fatFindDirEntry (hnul s (by simp)) hshort hfound).2, ?_⟩
      have hr : v.entryNamed s d = some (some e) := hfind ▸ hfound
      cases hout with
      | next _ _ he hout =>
        rw [hr] at he
        cases he
        exact ih (fun s hs => hnul s (by simp [hs])) hwalk hout (hnext e hfound)
      | tooLong hlen => exact absurd hshort (Nat.not_le.2 hlen)
      | notDirectory _ hdir' => rw [hd] at hdir'; cases hdir'
      | absent _ _ he => rw [hr] at he; cases he
    · rename_i hdir
      rw [if_pos (not_not.1 (mt lookup_iff.1 hdir)), Option.some.injEq] at hwalk
      subst hwalk
      cases hfilter : (s :: rest).filter (· ≠ []) with
      | nil =>
        rw [hfilter] at hout
        cases hout
      | cons c cs =>
        refine ⟨c, cs, rfl, ?_⟩
        rw [hfilter] at hout
        by_contra hlong
        generalize hr : (Except.error DIR_NOT_FOUND : Except Int DirEntry) = r at hout
        cases hout with
        | next hlen _ _ _ => exact hlong hlen
        | tooLong _ => cases hr
        | notDirectory hlen _ => exact hlong hlen
        | absent hlen _ _ => exact hlong hlen

/-- Resolution of a path with a leading slash is right exactly when its segments are plain. -/
theorem resolution_right_iff (v : Volume) {path : List UInt8} (hnul : NoNul path) (hslash : path.head? = some slash) :
    RightlyResolved v path ↔ path = [slash] ∨ Plain v (rootDir v.fs) (segments path.tail) := by
  obtain ⟨t, rfl⟩ : ∃ t, path = slash :: t := by
    cases path with
    | nil => cases hslash
    | cons b t => exact ⟨t, by rw [List.head?_cons, Option.some.injEq] at hslash; rw [hslash]⟩
  by_cases ht : t = []
  · subst ht
    refine ⟨fun _ => .inl rfl, fun _ => ⟨⟨_, fatFindDirEntryFromPath_root v, .found _⟩, ?_⟩⟩
    exact fun _ _ h => absurd rfl h
  · have hne : slash :: t ≠ [slash] := by simpa using ht
    have hcomponents : components (slash :: t) = (segments t).filter (· ≠ []) := by
      rw [filter_segments, components, List.splitOn_cons_eq_if_modifyHead, if_pos (by simp)]
      rfl
    have hnames : ∀ s ∈ segments t, NoNul s := fun s hs => hnul.of_cons.2.mono (subset_of_mem_segments hs)
    have hlookups : (∀ index d, slash :: t ≠ [slash] → Reached v (slash :: t) (index, d) →
        LooksUp (slash :: t) index d → segmentAt (slash :: t) index ≠ [] ∧ d.isDirectory ∧
          v.fatFindDirEntry (subName (segmentAt (slash :: t) index)) d =
            v.entryNamed (segmentAt (slash :: t) index) d) ↔ LookupsRight v (rootDir v.fs) (segments t) := by
      rw [← lookupsRight_iff v (rootDir v.fs) (List.cons_ne_nil slash []) ht]
      constructor
      · intro h index e hreach
        exact h index e hne (Relation.ReflTransGen.head (resolveStep_slash v t _) hreach)
      · intro h index e _ hreach hlook
        rcases Relation.ReflTransGen.cases_head hreach with h0 | ⟨y, hy, hreach⟩
        · cases h0
          exact absurd rfl hlook.1
        · rw [resolveStep_slash v t, Option.some.injEq, Sum.inr.injEq] at hy
          subst hy
          exact h index e hreach hlook
    simp only [hne, false_or]
    rw [RightlyResolved, fatFindDirEntryFromPath_slash v ht, hcomponents, hlookups, List.tail_cons]
    constructor
    · rintro ⟨⟨r, hwalk, hout⟩, hlook⟩
      exact plain_of_walk hnames hwalk hout hlook
    · exact walk_of_plain hnames

/-- `//` does not resolve to the root directory but to its first unused slot. -/
theorem doubled_slash_not_right :
    ∃ v, fatInit (some fun _ => 0) twoClusterDisk = some (some v) ∧
      fatFindDirEntryFromPath v [slash, slash] = some (.ok DirEntry.zero) ∧ ¬ RightlyResolved v [slash, slash] := by
  have hmount : ((fatInit (some fun _ => 0) twoClusterDisk).bind fun mounted => mounted.bind fun v =>
      (fatFindDirEntryFromPath v [slash, slash]).bind Except.toOption) = some DirEntry.zero := by decide +kernel
  simp only [Option.bind_eq_some_iff] at hmount
  obtain ⟨_, hinit, v, rfl, r, hfind, hr⟩ := hmount
  obtain ⟨e, rfl⟩ : ∃ e, r = .ok e := by
    cases r with
    | error _ => cases hr
    | ok e => exact ⟨e, rfl⟩
  refine ⟨v, hinit, ?_, ?_⟩
  · rw [hfind, ← Option.some.inj hr]
  · rintro ⟨⟨r, hfind', hout⟩, _⟩
    rw [hfind] at hfind'
    cases hfind'
    have hnone : components [slash, slash] = [] := by decide
    rw [hnone] at hout
    cases hout
    exact absurd (congrArg DirEntry.attr (Option.some.inj hr)) (show attrDirectory ≠ 0 by decide)

/-- `resolution_right_iff` on the file of the image. -/
theorem resolution_right_iff_file :
    ∃ v, fatInit (some fun _ => 0) twoClusterDisk = some (some v) ∧
      (RightlyResolved v [slash, 0x61] ↔ [slash, 0x61] = [slash] ∨ Plain v (rootDir v.fs) (segments [0x61])) := by
  have hmount : ((fatInit (some fun _ => 0) twoClusterDisk).bind id).isSome = true := by decide +kernel
  obtain ⟨v, hv⟩ := Option.isSome_iff_exists.1 hmount
  simp only [Option.bind_eq_some_iff, id] at hv
  obtain ⟨_, hinit, rfl⟩ := hv
  exact ⟨v, hinit, resolution_right_iff v (by decide +kernel) rfl⟩

end DBolOS.Fat
