import DBolOS.Fat.Ways

/-!
# The directory part of a path

A path leads to a record when its segments do, behind a leading slash or `~/`.  Cutting it at its last slash, as
`get_parent_dir` does, gives the path of the directory; the creation then cuts this path once more, for the record of the
directory itself (`InDirectory`).
-/

namespace DBolOS.Fat

/-! ### Segments -/

/-- The last component of a path is its last segment. -/
private theorem segments_concat {t name : List UInt8} (ht : t ≠ []) (hlast : t.getLast? ≠ some slash)
    (hname : slash ∉ name)
    (hne : name ≠ []) : segments (t ++ slash :: name) = segments t ++ [name] := by
  induction hlen : t.length using Nat.strong_induction_on generalizing t with
  | _ n ih =>
    obtain ⟨s, hs, -, hcases⟩ := segment_cases t
    rcases hcases with (rfl | h) | ⟨t', ht', rfl⟩
    · rw [segments_append hs hne, (segments_last hname).1, (segments_last hs).1, List.singleton_append]
    · rw [h, List.getLast?_concat] at hlast
      exact absurd rfl hlast
    · have hlast' : t'.getLast? ≠ some slash := by
        rwa [List.getLast?_append_of_ne_nil _ (by simp), List.getLast?_cons_of_ne_nil ht'] at hlast
      have hlt : t'.length < n := by
        rw [← hlen, List.length_append, List.length_cons]
        omega
      rw [List.append_assoc, List.cons_append, segments_append hs (by simp), segments_append hs ht',
        ih t'.length hlt ht' hlast' rfl, List.cons_append]

/-- A slash before the last one ends an empty segment. -/
private theorem nil_mem_segments {t name : List UInt8} (ht : t = [] ∨ t.getLast? = some slash) (hname : slash ∉ name)
    (hne : name ≠ []) : [] ∈ segments (t ++ slash :: name) := by
  rcases ht with rfl | hlast
  · rw [List.nil_append, ← List.nil_append (slash :: name), segments_append (by simp) hne]
    exact List.mem_cons_self
  · obtain ⟨u, rfl⟩ := List.getLast?_eq_some_iff.1 hlast
    have hend : (u ++ [slash] ++ slash :: name).getLast? ≠ some slash := by
      rw [List.getLast?_append_of_ne_nil _ (by simp), List.getLast?_cons_of_ne_nil hne]
      exact fun h => hname (List.mem_of_getLast? h)
    rw [segments, dropSlash, if_neg hend, List.append_assoc, List.singleton_append, List.splitOn_append_cons_self,
      ← List.nil_append (slash :: name), List.splitOn_append_cons_self, List.splitOn_nil]
    simp

/-! ### Paths -/

/-- Resolution of a path with a slash in the first or, behind `~`, in the second place. -/
private theorem fatFindDirEntryFromPath_below_root (v : Volume) {c t : List UInt8} (hc : c = [] ∨ c = [tilde])
    (ht : t ≠ []) :
    fatFindDirEntryFromPath v (c ++ slash :: t) = walk v (rootDir v.fs) (segments t) := by
  rcases hc with rfl | rfl
  · exact fatFindDirEntryFromPath_slash v ht
  · have hne : ¬([tilde] ++ slash :: t = [tilde, slash] ∨ [tilde] ++ slash :: t = [slash] ∨
        [tilde] ++ slash :: t = [dot, slash]) := by simp [slash, tilde, dot, ht]
    have hstep : resolveStep v ([tilde] ++ slash :: t) 0 (rootDir v.fs) = some (.inr (2, rootDir v.fs)) := by
      simp [resolveStep, nameLen, filenameSize, tilde, slash]
    rw [fatFindDirEntryFromPath, if_neg hne, resolveFrom, hstep]
    have hn : t.length ≤ ([tilde] ++ slash :: t).length + 1 := by
      simp only [List.length_append, List.length_cons]
      omega
    exact @resolveFrom_eq_walk v [tilde, slash] t (rootDir v.fs) _ (by simp) ht hn

namespace View

variable {s s' : View} {ch : Option Loc → List Nat} {path : List UInt8} {r r' : DirEntry}

/-- The path is one of those of the root, or leads from the root to the record. -/
def PathTo (s : View) (path : List UInt8) (r : DirEntry) : Prop :=
  (path = [slash] ∨ path = [tilde, slash] ∨ path = [dot, slash]) ∧ r = rootDir s.fs ∨
    ∃ c t, (c = [] ∨ c = [tilde]) ∧ path = c ++ slash :: t ∧ t ≠ [] ∧ s.Way (rootDir s.fs) (segments t) r

theorem standsFor_rootDir (s : View) : s.StandsFor (rootDir s.fs) none := (Node.root : Node s none).standsFor

theorem PathTo.standsFor (hpath : s.PathTo path r) : ∃ n, s.StandsFor r n := by
  rcases hpath with ⟨-, rfl⟩ | ⟨c, t, -, -, -, hway⟩
  · exact ⟨none, s.standsFor_rootDir⟩
  · exact hway.standsFor s.standsFor_rootDir

/-- The path of the root leads to the root. -/
theorem PathTo.eq_rootDir (hpath : s.PathTo [slash] r) : r = rootDir s.fs := by
  rcases hpath with ⟨-, hr⟩ | ⟨c, t, rfl | rfl, hcons, ht, -⟩
  · exact hr
  · exact absurd (List.cons.inj hcons).2.symm ht
  · cases hcons

/-- A path other than the root's that does not end in a slash. -/
private theorem PathTo.exists_segments (hpath : s.PathTo path r) (hroot : path ≠ [slash])
    (hlast : path.getLast? ≠ some slash) :
    ∃ c t, (c = [] ∨ c = [tilde]) ∧ path = c ++ slash :: t ∧ t ≠ [] ∧ t.getLast? ≠ some slash ∧
      s.Way (rootDir s.fs) (segments t) r := by
  rcases hpath with ⟨rfl | rfl | rfl, -⟩ | ⟨c, t, hc, rfl, ht, hway⟩
  · exact absurd rfl hroot
  · exact absurd rfl hlast
  · exact absurd rfl hlast
  · rw [List.getLast?_append_of_ne_nil _ (by simp), List.getLast?_cons_of_ne_nil ht] at hlast
    exact ⟨c, t, hc, rfl, ht, hlast, hway⟩

/-- A path leads on where its ways do. -/
theorem PathTo.map {R : DirEntry → DirEntry → Prop} (hpath : s.PathTo path r) (hfs : s'.fs = s.fs)
    (hroot : R (rootDir s.fs) (rootDir s.fs))
    (hmap : ∀ names r, s.Way (rootDir s.fs) names r → ∃ r', s'.Way (rootDir s.fs) names r' ∧ R r r') :
    ∃ r', s'.PathTo path r' ∧ R r r' := by
  rcases hpath with ⟨hroots, rfl⟩ | ⟨c, t, hc, hpath, ht, hway⟩
  · exact ⟨rootDir s.fs, .inl ⟨hroots, by rw [hfs]⟩, hroot⟩
  · obtain ⟨r', hway', hr'⟩ := hmap _ _ hway
    exact ⟨r', .inr ⟨c, t, hc, hpath, ht, by rwa [hfs]⟩, hr'⟩

/-- A path leads where it led before a new entry. -/
theorem PathTo.added {ch' : Option Loc → List Nat} {q : Option Loc} {ds : List Nat} {l : Loc} {e : DirEntry} {f : Nat}
    (hpath : s.PathTo path r) (h : s.Tree ch) (ha : s.Added s' ch ch' q ds l e f) (hq : Node s q)
    (hnew : ∀ l' ∈ s.locs (ch q), (s.slot l').answersTo e.nameStr = false) : s'.PathTo path r := by
  obtain ⟨r', hpath', rfl⟩ := hpath.map (R := fun r r' => r = r') ha.fs rfl fun names r hway =>
    ⟨r, hway.added h ha hq s.standsFor_rootDir hnew, rfl⟩
  exact hpath'

/-- The path of a record below another one. -/
theorem PathTo.below {name : List UInt8} (hpath : s.PathTo path r) (hroot : path ≠ [slash])
    (hlast : path.getLast? ≠ some slash) (hname : slash ∉ name) (hway : s.Way r [name] r') :
    s.PathTo (path ++ slash :: name) r' := by
  have hne : name ≠ [] := hway.ne_nil name List.mem_cons_self
  obtain ⟨c, t, hc, rfl, ht, hend, hto⟩ := hpath.exists_segments hroot hlast
  refine .inr ⟨c, t ++ slash :: name, hc, by simp, by simp, ?_⟩
  rw [segments_concat ht hend hname hne]
  exact hto.append hway

/-- The record of a directory is found under the last component of its path, in the record that the rest leads to. -/
theorem PathTo.last {stale : ByteMem} {parent : List UInt8} (hpath : s.PathTo path r) (hnul : NoNul path)
    (hroot : path ≠ [slash]) (hlast : path.getLast? ≠ some slash) (hparent : getParentDir stale path = some parent)
    (hto : s.PathTo parent r') : ∃ name, s.Way r' [name] r := by
  obtain ⟨c, t, hc, rfl, ht, hend, hway⟩ := hpath.exists_segments hroot hlast
  rcases lastSlash_cases t with hno | ⟨u, name, rfl, hname⟩
  · rw [getParentDir_slash hnul hno] at hparent
    split at hparent
    · cases hparent
    obtain rfl := Option.some.inj hparent
    rw [(segments_last hno).1] at hway
    rcases hc with rfl | rfl
    · -- a component of the root
      obtain rfl := PathTo.eq_rootDir hto
      exact ⟨t, hway⟩
    · -- `~` alone is no such path
      rcases hto with ⟨h | h | h, -⟩ | ⟨c', t', hc', hpath', ht', -⟩
      · cases h
      · cases h
      · cases h
      · rcases hc' with rfl | rfl <;> cases hpath'
  have hne : name ≠ [] := by
    rintro rfl
    exact hend (by simp)
  have hinner : ¬(u = [] ∨ u.getLast? = some slash) := fun h =>
    hway.ne_nil [] (nil_mem_segments h hname hne) rfl
  rw [not_or] at hinner
  obtain ⟨hu, hulast⟩ := hinner
  have hassoc : c ++ slash :: (u ++ slash :: name) = (c ++ slash :: u) ++ slash :: name := by simp
  rw [hassoc] at hnul hparent
  rw [getParentDir_slash hnul hname, if_neg (by simp : c ++ slash :: u ≠ [])] at hparent
  split at hparent
  · cases hparent
  obtain rfl := Option.some.inj hparent
  rw [segments_concat hu hulast hname hne] at hway
  obtain ⟨r₁, hway₁, hrest⟩ := hway.split
  -- the rest of the path is no path of the root
  rcases hto with ⟨h, -⟩ | ⟨c', t', hc', hpath', -, hway'⟩
  · rcases hc with rfl | rfl
    · simp [hu, slash, tilde, dot] at h
    · simp [hu, slash, tilde, dot] at h
  · have ht' : t' = u := by
      rcases hc with rfl | rfl
      · rcases hc' with rfl | rfl
        · exact (List.cons.inj hpath').2.symm
        · cases hpath'
      · rcases hc' with rfl | rfl
        · cases hpath'
        · exact (List.cons.inj (List.cons.inj hpath').2).2.symm
    rw [ht'] at hway'
    exact ⟨name, hway'.functional hway₁ ▸ hrest⟩

end View

variable {v : Volume} {path : List UInt8} {r : DirEntry}

/-- The kernel resolves a path to the record that it leads to. -/
theorem View.PathTo.resolves (hs : v.fs.Sound) (h : v.view.PathTo path r) :
    fatFindDirEntryFromPath v path = some (.ok r) := by
  rcases h with ⟨hroot, rfl⟩ | ⟨c, t, hc, rfl, ht, hway⟩
  · rw [fatFindDirEntryFromPath, if_pos (by tauto)]
    rfl
  · rw [fatFindDirEntryFromPath_below_root v hc ht]
    exact walk_of_way hs hway

/-- `get_parent_dir` cuts the path to one that leads to the record `r`, and this one to one that leads to `p`. -/
structure Volume.InDirectory (v : Volume) (stale : ByteMem) (path directory : List UInt8) (r p : DirEntry) : Prop where
  noNul : NoNul path
  parent : getParentDir stale path = some directory
  leads : v.view.PathTo directory r
  above : ∃ parent, getParentDir stale directory = some parent ∧ v.view.PathTo parent p

/-- The path has a slash, and ends behind the copied bytes. -/
theorem Volume.InDirectory.shape {stale : ByteMem} {directory : List UInt8} {p : DirEntry}
    (h : v.InDirectory stale path directory r p) : ∃ pre name, path = pre ++ slash :: name ∧ slash ∉ name ∧
      directory = (if pre = [] then [slash] else pre) ∧ path.length < pathCopySize := by
  have hnul := h.noNul
  have hparent := h.parent
  rcases lastSlash_cases path with hno | ⟨pre, name, rfl, hname⟩
  · -- a path without a slash is its own directory part, and leads nowhere
    have hdirectory : directory = path := by
      have hne : path ≠ [] := by
        rintro rfl
        simp [getParentDir, splitPath, strcpy] at hparent
      rw [getParentDir_of_not_mem hnul hne hno] at hparent
      split at hparent
      · cases hparent
      · exact (Option.some.inj hparent).symm
    have hleads := h.leads
    rw [hdirectory] at hleads
    rcases hleads with ⟨rfl | rfl | rfl, -⟩ | ⟨c, t, -, rfl, -⟩
    · exact absurd (by decide) hno
    · exact absurd (by decide) hno
    · exact absurd (by decide) hno
    · exact absurd (by simp) hno
  · rw [getParentDir_slash hnul hname] at hparent
    split at hparent
    · cases hparent
    rename_i hshort
    exact ⟨pre, name, rfl, hname, (Option.some.inj hparent).symm, Nat.not_le.1 hshort⟩

theorem Volume.InDirectory.noNul_directory {stale : ByteMem} {directory : List UInt8} {p : DirEntry}
    (h : v.InDirectory stale path directory r p) : NoNul directory := by
  obtain ⟨pre, name, rfl, -, rfl, -⟩ := h.shape
  split
  · simp [NoNul, slash]
  · exact h.noNul.mono (by simp)

/-- The path is that of its last component in the directory, with one slash between them. -/
structure PlainPath (path directory name : List UInt8) : Prop where
  noNul : NoNul path
  name_ne : name ≠ []
  name_slash : slash ∉ name
  shape : directory = [slash] ∧ path = slash :: name ∨
    directory ≠ [slash] ∧ directory.getLast? ≠ some slash ∧ path = directory ++ slash :: name

/-- The path is that of the root, or has no slash at its end. -/
def Ends (directory : List UInt8) : Prop := directory = [slash] ∨ directory.getLast? ≠ some slash

namespace PlainPath

variable {directory name : List UInt8}

theorem ends (h : PlainPath path directory name) : Ends directory := by
  rcases h.shape with ⟨hroot, -⟩ | ⟨-, hlast, -⟩
  · exact .inl hroot
  · exact .inr hlast

theorem noNul_name (h : PlainPath path directory name) : NoNul name := by
  rcases h.shape with ⟨-, rfl⟩ | ⟨-, -, rfl⟩
  · exact h.noNul.mono (by simp)
  · exact h.noNul.mono (by simp)

/-- The last component is in a buffer of its own when it fits. -/
theorem base (h : PlainPath path directory name) {stale : ByteMem} (hparent : getParentDir stale path = some directory) :
    getBaseName stale path = if filenameSize < name.length then none else some (subName name) := by
  obtain ⟨pre, hpath⟩ : ∃ pre, path = pre ++ slash :: name := by
    rcases h.shape with ⟨-, hpath⟩ | ⟨-, -, hpath⟩
    · exact ⟨[], hpath⟩
    · exact ⟨_, hpath⟩
  have hnul := h.noNul
  subst hpath
  rw [getParentDir_slash hnul h.name_slash] at hparent
  split at hparent
  · cases hparent
  rename_i hshort
  rw [getBaseName_slash hnul h.name_slash h.name_ne]
  simp only [hshort, false_or]

/-- The path looks its last component up behind the way to the directory. -/
theorem exists_way {s : View} (h : PlainPath path directory name) (hto : s.PathTo directory r) :
    ∃ names, s.Way (rootDir s.fs) names r ∧ (∀ c ∈ names, c ∈ components directory) ∧
      ∀ v : Volume, fatFindDirEntryFromPath v path = walk v (rootDir v.fs) (names ++ [name]) := by
  rcases h.shape with ⟨rfl, rfl⟩ | ⟨hroot, hlast, rfl⟩
  · obtain rfl := hto.eq_rootDir
    refine ⟨[], .here _, by simp, fun v => ?_⟩
    rw [fatFindDirEntryFromPath_slash v h.name_ne, (segments_last h.name_slash).1, List.nil_append]
  · obtain ⟨c, t, hc, rfl, ht, hend, hway⟩ := hto.exists_segments hroot hlast
    refine ⟨segments t, hway, fun c' hc' => ?_, fun v => ?_⟩
    · have hmem : c' ∈ (t.splitOn slash).filter (· ≠ []) := by
        rw [← filter_segments, List.mem_filter]
        exact ⟨hc', by simpa using hway.ne_nil c' hc'⟩
      rw [components, List.splitOn_append_cons_self, List.filter_append, List.mem_append]
      exact .inr hmem
    · rw [List.append_assoc, List.cons_append, fatFindDirEntryFromPath_below_root v hc (by simp),
        segments_concat ht hend h.name_slash h.name_ne]

/-- The path resolves to what its last component finds in the directory. -/
theorem find (h : PlainPath path directory name) (hs : v.fs.Sound) (hto : v.view.PathTo directory r) :
    fatFindDirEntryFromPath v path = walk v r [name] := by
  obtain ⟨names, hway, -, hfind⟩ := h.exists_way hto
  rw [hfind]
  exact walk_append_of_way hs hway [name]

end PlainPath

private theorem noNul_slash_cons {name : List UInt8} (hnul : NoNul name) : NoNul (slash :: name) := by
  rw [NoNul, List.forall_mem_cons]
  exact ⟨by decide, hnul⟩

/-- The path of an entry of the root. -/
theorem plain_root {name : List UInt8} (hnul : NoNul name) (hname : slash ∉ name) (hne : name ≠ []) :
    PlainPath (slash :: name) [slash] name :=
  ⟨noNul_slash_cons hnul, hne, hname, .inl ⟨rfl, rfl⟩⟩

theorem inDirectory_root {name : List UInt8} (hnul : NoNul name) (hlen : name.length ≤ filenameSize) (hname : slash ∉ name)
    (v : Volume) (stale : ByteMem) : v.InDirectory stale (slash :: name) [slash] (rootDir v.fs) (rootDir v.fs) := by
  have hroot : v.view.PathTo [slash] (rootDir v.fs) := .inl ⟨.inl rfl, rfl⟩
  have hparent : ∀ name : List UInt8, NoNul name → name.length ≤ filenameSize → slash ∉ name →
      getParentDir stale (slash :: name) = some [slash] := by
    intro name hnul hlen hname
    have hcopy : ¬pathCopySize ≤ ([] ++ slash :: name).length :=
      Nat.not_le.2 (Nat.lt_of_le_of_lt (Nat.succ_le_succ hlen) (by decide))
    have := @getParentDir_slash stale [] name (noNul_slash_cons hnul) hname
    rwa [if_neg hcopy, if_pos rfl] at this
  exact ⟨noNul_slash_cons hnul, hparent name hnul hlen hname, hroot, [slash],
    hparent [] (by simp [NoNul]) (by decide) (by simp), hroot⟩

end DBolOS.Fat
