import DBolOS.Fat.Parents

/-!
# The record of the directory

After a creation or a deletion the record of the directory is written into the directory that the rest of its path leads
to, in the first slot of its name.  Where the path of the directory has no slash at its end, that is the slot in which the
record was found, and every path leads where it led, up to the size in this record.  The root has no record; in its stead
an entry `~` of the root is overwritten, if there is one.
-/

namespace DBolOS.Fat

/-! ### The slot of the record -/

/-- The name at the head of a record of less than 11 bytes is compared alone. -/
private theorem nameEquals_record {e : DirEntry} (r : DirEntry) (hshort : e.nameStr.length < filenameSize) :
    Volume.nameEquals e.toBytes r = some (r.answersTo e.nameStr) := by
  obtain ⟨x, u, hbytes, hx⟩ := toBytes_of_nameStr e
  obtain rfl : x = 0 := by
    rcases hx with ⟨hlen, -⟩ | hzero
    · exact absurd hlen hshort.ne
    · exact hzero
  have hrecord : e.nameStr.length < r.toBytes.length := by
    rw [DirEntry.length_toBytes]
    exact hshort.trans (by decide)
  obtain ⟨d, hd, hiff⟩ := strncmp_eq_zero_iff u e.noNul_nameStr hshort.le hrecord
  rw [DirEntry.toBytes_eq_append_iff e.noNul_nameStr hshort.le] at hiff
  rw [Volume.nameEquals, hbytes, @strcmp_eq_strncmp filenameSize e.nameStr _ _ e.noNul_nameStr hshort.le, hd,
    Option.map_eq_map, Option.map_some, Option.some.injEq, DirEntry.answersTo, Bool.eq_iff_iff, beq_iff_eq,
    decide_eq_true_iff]
  exact hiff

open DirEntry (Resized)

namespace Volume

variable {v w : Volume} {ch ch' : Option Loc → List Nat} {q : Option Loc} {r p e : DirEntry} {stale : ByteMem}
  {path directory : List UInt8}

/-- The record of a directory with one more in its count. -/
def counted (e : DirEntry) : DirEntry := { e with fileSize := e.fileSize + 1 }

/-- From `v` to `w` the record `r` was written over the first one of its name in the directory `q`, if there is one. -/
def StoresCount (v w : Volume) (ch : Option Loc → List Nat) (q : Option Loc) (r : DirEntry) : Prop :=
  match v.firstSlot (ch q) (DirEntry.answersTo r.nameStr) with
  | some l => v.StoresRecord w l r
  | none => w = v

theorem StoresCount.fs (hc : v.StoresCount w ch q r) : w.fs = v.fs := by
  unfold StoresCount at hc
  split at hc
  · exact hc.fs
  · rw [hc]

theorem nameStr_rootDir (fs : Fat16Fs) : (rootDir fs).nameStr = [tilde] :=
  nameStr_nameOf (by simp [NoNul, tilde]) (by simp) rfl

/-- A directory that a path leads to has a name of less than 11 bytes. -/
private theorem short_of_pathTo {s : View} (hpath : s.PathTo path r) (hdir : r.isDirectory) :
    r.nameStr.length < filenameSize := by
  rcases hpath with ⟨-, rfl⟩ | ⟨c, t, -, -, -, hway⟩
  · rw [nameStr_rootDir]
    decide
  · exact hway.short (segments_ne_nil t) hdir

/-- The record of a directory is written over the first one of its name. -/
private theorem fatUpdateDirEntry_count (hs : v.fs.Sound) (h : v.view.Tree ch) (hp : v.view.StandsFor p q)
    (hshort : r.nameStr.length < filenameSize) :
    ∃ b w, v.fatUpdateDirEntry r.toBytes p r = some (b, w) ∧ v.StoresCount w ch q r := by
  have htest : ∀ l ∈ v.view.locs (ch q), nameEquals r.toBytes (v.view.slot l) =
      some ((v.view.slot l).answersTo r.nameStr) := fun l _ => nameEquals_record (v.view.slot l) hshort
  unfold StoresCount
  cases hl : v.firstSlot (ch q) (DirEntry.answersTo r.nameStr) with
  | some l =>
    obtain ⟨w, hw, hstores⟩ := fatUpdateDirEntry_stores r hs (hp.chain h) htest hl
    exact ⟨true, w, hw, hstores⟩
  | none =>
    have hspec := fatUpdateDirEntry_spec r hs (hp.chain h) htest
    rw [hl] at hspec
    exact ⟨false, v, hspec, rfl⟩

/-- The count of the directory of a path is stored without an error. -/
theorem updateParentCount_count (hs : v.fs.Sound) (h : v.view.Tree ch) (hin : v.InDirectory stale path directory r p)
    (hp : v.view.StandsFor p q) (hdir : r.isDirectory) :
    ∃ w, v.updateParentCount stale directory (counted r) = some (SUCCESS, w) ∧ v.StoresCount w ch q (counted r) := by
  obtain ⟨parent, hparent, hto⟩ := hin.above
  obtain ⟨b, w, hw, hstores⟩ := @fatUpdateDirEntry_count v ch q (counted r) p hs h hp (short_of_pathTo (r := r) hin.leads hdir)
  refine ⟨w, ?_, hstores⟩
  simp only [updateParentCount, hparent, hto.resolves hs, hw, Option.bind_eq_bind, Option.bind_some]

theorem InDirectory.root (hin : v.InDirectory stale path [slash] r p) : r = rootDir v.fs := hin.leads.eq_rootDir

/-- The directory above the root is the root. -/
theorem InDirectory.above_root (hin : v.InDirectory stale path [slash] r p) : p = rootDir v.fs := by
  obtain ⟨parent, hparent, hto⟩ := hin.above
  have hslash : getParentDir stale [slash] = some [slash] := by
    have := @getParentDir_slash stale [] [] hin.noNul_directory (by simp)
    rwa [List.nil_append, if_neg (by decide), if_pos rfl] at this
  rw [hslash] at hparent
  obtain rfl := Option.some.inj hparent
  exact hto.eq_rootDir

/-- The count goes into the slot of the record, and for the root nowhere without an entry `~`. -/
theorem StoresCount.own (hc : v.StoresCount w ch q (counted r)) (h : v.view.Tree ch)
    (hin : v.InDirectory stale path directory r p) (hp : v.view.StandsFor p q) (hends : Ends directory)
    (hno : directory = [slash] → v.firstSlot (ch none) (DirEntry.answersTo [tilde]) = none) :
    w = v ∨ p.isDirectory ∧ ∃ l ∈ v.view.locs (ch q), v.view.slot l = r ∧ v.StoresRecord w l (counted r) := by
  by_cases hroot : directory = [slash]
  · subst hroot
    obtain rfl := hin.root
    obtain rfl := hin.above_root
    obtain rfl := hp.unique v.view.standsFor_rootDir h
    have hname : (counted (rootDir v.fs)).nameStr = [tilde] := nameStr_rootDir v.fs
    rw [StoresCount, hname, hno rfl] at hc
    exact .inl hc
  · obtain ⟨parent, hparent, hto⟩ := hin.above
    obtain ⟨name, hway⟩ := hin.leads.last hin.noNul_directory hroot (hends.resolve_left hroot) hparent hto
    obtain ⟨l, n, hdir, -, -, -, hl, -, hrest⟩ := h.way_cons hp hway
    cases hrest
    have hname : (counted (v.view.slot l)).nameStr = name :=
      (of_decide_eq_true (List.find?_some (p := fun l' => (v.view.slot l').answersTo name) hl)).1
    have hfirst : v.firstSlot (ch q) (DirEntry.answersTo name) = some l := hl
    rw [StoresCount, hname, hfirst] at hc
    exact .inr ⟨hdir, l, List.mem_of_find?_eq_some hl, rfl, hc⟩

/-- The directory is the same after a new entry. -/
theorem InDirectory.added {u : Volume} {q' : Option Loc} {ds : List Nat} {l : Loc} {f : Nat}
    (hin : v.InDirectory stale path directory r p) (h : v.view.Tree ch) (ha : v.view.Added u.view ch ch' q' ds l e f)
    (hq : View.Node v.view q') (hnew : ∀ l' ∈ v.view.locs (ch q'), (v.view.slot l').answersTo e.nameStr = false) :
    u.InDirectory stale path directory r p := by
  obtain ⟨parent, hparent, hto⟩ := hin.above
  exact ⟨hin.noNul, hin.parent, hin.leads.added h ha hq hnew, parent, hparent, hto.added h ha hq hnew⟩

end Volume

end DBolOS.Fat
