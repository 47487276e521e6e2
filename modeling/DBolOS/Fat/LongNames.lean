import DBolOS.Fat.Calls
import DBolOS.Fat.Names

/-!
# Names that are too long

`get_base_name` copies the last component of a path into 12 bytes before any length is checked.  A path whose last
component has more than 11 bytes is refused only when a slash follows the component, and the bytes that the stack
happens to hold then decide how much is copied (`rejected_iff`).
-/

namespace DBolOS.Fat

/-! ### Copying what follows a trailing slash -/

private theorem two_le_length_strcpy {s r : List UInt8} (h : strcpy s = some r) : 2 ≤ r.length := by
  induction s generalizing r with
  | nil => cases h
  | cons a s ih =>
    cases s with
    | nil => cases h
    | cons b s =>
      rw [strcpy] at h
      split at h
      · cases h
        simp
      · obtain ⟨r', hr', rfl⟩ := Option.map_eq_some_iff.1 h
        have := ih hr'
        simp
        omega

/-- The copy ends at the first zero behind the first byte. -/
private theorem strcpy_cons_fits_iff {a : UInt8} {t : List UInt8} {n : Nat} :
    (∃ r, strcpy (a :: t) = some r ∧ r.length ≤ n + 2) ↔ ∃ i < n + 1, t[i]? = some 0 := by
  induction t generalizing a n with
  | nil => simp [strcpy]
  | cons b t ih =>
    by_cases hb : b = 0
    · subst hb
      exact iff_of_true ⟨[a, 0], by simp [strcpy], by simp⟩ ⟨0, by omega, rfl⟩
    · have hfirst : (∃ i < n + 1, (b :: t)[i]? = some 0) ↔ ∃ i < n, t[i]? = some 0 := by
        constructor
        · rintro ⟨i, hi, hget⟩
          cases i with
          | zero => exact absurd (Option.some.inj hget) hb
          | succ i => exact ⟨i, by omega, hget⟩
        · rintro ⟨i, hi, hget⟩
          exact ⟨i + 1, by omega, hget⟩
      have hcons : (∃ r, strcpy (a :: b :: t) = some r ∧ r.length ≤ n + 2) ↔
          ∃ r, strcpy (b :: t) = some r ∧ r.length ≤ n + 1 := by
        rw [strcpy, if_neg hb]
        constructor
        · rintro ⟨r, hr, hlen⟩
          obtain ⟨r', hr', rfl⟩ := Option.map_eq_some_iff.1 hr
          exact ⟨r', hr', by simpa using hlen⟩
        · rintro ⟨r, hr, hlen⟩
          exact ⟨a :: r, by rw [hr]; rfl, by simpa using hlen⟩
      rw [hfirst, hcons]
      cases n with
      | zero =>
        refine iff_of_false ?_ (by simp)
        rintro ⟨r, hr, hlen⟩
        have := two_le_length_strcpy hr
        omega
      | succ n => exact ih

/-- Behind a trailing slash the name fits when the stack holds a zero among the 11 bytes after the path. -/
private theorem getBaseName_trailing {stale : ByteMem} {pre : List UInt8} (hnul : NoNul (pre ++ [slash]))
    (hlen : (pre ++ [slash]).length ≤ 255) :
    (∃ b, getBaseName stale (pre ++ [slash]) = some b) ↔
      ∃ i < 11, stale ((pre ++ [slash]).length + 1 + i) = 0 := by
  have hsplit := @splitPath_eq stale _ _ hnul (by simp) fun t => by
    rw [strrchr_last hnul (by simp) t 0 none, Nat.zero_add]
  have hshort : ¬pathCopySize ≤ (pre ++ [slash]).length := by
    rw [pathCopySize]
    omega
  have hdrop : ∀ t, (pre ++ [slash] ++ 0 :: t).drop (pre.length + 1) = 0 :: t := by
    intro t
    have hpre : (pre ++ [slash]).length = pre.length + 1 := by simp
    rw [← hpre, List.drop_left]
  rw [if_neg hshort] at hsplit
  obtain ⟨rest, hrest⟩ : ∃ rest, rest =
    stale.readBytes ((pre ++ [slash]).length + 1) (pathCopySize - ((pre ++ [slash]).length + 1)) := ⟨_, rfl⟩
  have hget : ∀ i < 11, rest[i]? = some (stale ((pre ++ [slash]).length + 1 + i)) := by
    intro i hi
    rw [hrest, ByteMem.getElem?_readBytes]
    rw [pathCopySize]
    omega
  have hname : (∃ b, getBaseName stale (pre ++ [slash]) = some b) ↔
      ∃ r, strcpy (0 :: rest) = some r ∧ r.length ≤ 10 + 2 := by
    rw [getBaseName, hsplit]
    simp only [Option.bind_eq_bind, Option.bind_some, hdrop, ← hrest]
    cases strcpy (0 :: rest) with
    | none => simp
    | some r =>
      by_cases hr : r.length ≤ 12
      · simp [hr, filenameSize, Nat.not_lt.2 hr]
      · simp [hr, filenameSize, Nat.not_le.1 hr]
  rw [hname, strcpy_cons_fits_iff]
  constructor
  · rintro ⟨i, hi, hzero⟩
    rw [hget i hi] at hzero
    exact ⟨i, hi, Option.some.inj hzero⟩
  · rintro ⟨i, hi, hzero⟩
    exact ⟨i, hi, by rw [hget i hi, hzero]⟩

/-! ### Resolving a path with a long component -/

/-- Resolution does not get past a component of more than 11 bytes, which starts at `p`. -/
private theorem resolveFrom_ne_ok {v : Volume} {path : List UInt8} {p : Nat}
    (hlong : filenameSize < ((path.drop p).takeWhile (· ≠ slash)).length) (hstart : p = 0 ∨ path[p - 1]? = some slash)
    {n start : Nat} {d e : DirEntry} (hle : start ≤ p) : resolveFrom v path n start d ≠ some (.ok e) := by
  induction n generalizing start d with
  | zero => exact fun h => by cases h
  | succ n ih =>
    intro h
    rw [resolveFrom] at h
    obtain ⟨r, hr, h⟩ := Option.bind_eq_some_iff.1 h
    unfold resolveStep at hr
    dsimp only at hr
    rw [nameLen_eq] at hr
    split at hr
    · cases hr
      cases h
    rename_i hshort
    have hp : p < path.length := by
      by_contra hge
      rw [List.drop_eq_nil_of_le (Nat.not_lt.1 hge)] at hlong
      simp at hlong
    obtain ⟨len, hlen⟩ : ∃ len, len = ((path.drop start).takeWhile (· ≠ slash)).length := ⟨_, rfl⟩
    rw [← hlen] at hr hshort
    have hlt : start ≠ p := by
      rintro rfl
      rw [← hlen] at hlong
      omega
    -- the component ends before the slash in front of `p`
    have hbefore : start + len + 1 ≤ p := by
      have hslash := hstart.resolve_left (by omega)
      by_contra hgt
      have hin : p - 1 - start < ((path.drop start).takeWhile (· ≠ slash)).length := by omega
      have hget := (List.takeWhile_prefix (· ≠ slash)).getElem hin
      have hmem := List.mem_takeWhile_imp (List.getElem_mem hin)
      rw [hget, List.getElem_drop] at hmem
      have heq : start + (p - 1 - start) = p - 1 := by omega
      simp only [heq] at hmem
      obtain ⟨_, hat⟩ := List.getElem?_eq_some_iff.1 hslash
      simp [hat] at hmem
    have hmin : min (filenameSize + 1) len = len := by omega
    rw [hmin] at hr
    split at hr
    · split at hr
      · cases hr
        cases h
      · cases hr
        exact ih hbefore h
    split at hr
    · omega
    split at hr
    · cases hr
      cases h
    · obtain ⟨found, -, hr⟩ := Option.bind_eq_some_iff.1 hr
      cases found with
      | none =>
        cases hr
        cases h
      | some e =>
        cases hr
        exact ih hbefore h

/-! ### The calls -/

/-- A call refuses its path: it returns an error, and the volume is as before. -/
def Rejects (v : Volume) (call : Option (Int × Volume)) : Prop := ∃ r, call = some (r, v) ∧ r ≠ 0

/-- A path whose last component is `name`, with `slashes` slashes behind it. -/
def componentPath (pre name : List UInt8) (slashes : Nat) : List UInt8 := pre ++ name ++ List.replicate slashes slash

/-- The stack holds a zero among the 11 bytes after a copy of `path`. -/
def ZeroBehind (stale : ByteMem) (path : List UInt8) : Prop := ∃ i < 11, stale (path.length + 1 + i) = 0

instance (stale : ByteMem) (path : List UInt8) : Decidable (ZeroBehind stale path) := by
  unfold ZeroBehind
  infer_instance

private theorem getParentDir_defined {stale : ByteMem} {path : List UInt8} (hnul : NoNul path) (hne : path ≠ [])
    (hlen : path.length ≤ 255) :
    ∃ directory, getParentDir stale path = some directory ∧ NoNul directory ∧ directory ≠ [] ∧
      directory.length ≤ 255 := by
  have hshort : ¬pathCopySize ≤ path.length := by
    rw [pathCopySize]
    omega
  rcases lastSlash_cases path with hno | ⟨pre, name, rfl, hname⟩
  · exact ⟨path, by rw [getParentDir_of_not_mem hnul hne hno, if_neg hshort], hnul, hne, hlen⟩
  · refine ⟨_, by rw [getParentDir_slash hnul hname, if_neg hshort], ?_⟩
    rcases eq_or_ne pre [] with rfl | hpre
    · refine ⟨?_, by simp, by simp⟩
      rw [if_pos rfl]
      exact hnul.mono (by simp)
    · rw [if_neg hpre]
      refine ⟨hnul.mono (by simp), hpre, ?_⟩
      simp only [List.length_append] at hlen
      omega

/-- The base name of a path with a long last component is empty, and is found when the stack allows it. -/
private theorem getBaseName_long {stale : ByteMem} {pre name : List UInt8} {slashes : Nat}
    (hpre : pre = [] ∨ pre.getLast? = some slash) (hname : slash ∉ name) (hlong : 11 < name.length)
    (hnul : NoNul (componentPath pre name slashes)) (hlen : (componentPath pre name slashes).length ≤ 255) :
    ((∃ b, getBaseName stale (componentPath pre name slashes) = some b) ↔
        0 < slashes ∧ ZeroBehind stale (componentPath pre name slashes)) ∧
      ∀ b, getBaseName stale (componentPath pre name slashes) = some b → cstr b = [] := by
  cases slashes with
  | zero =>
    rw [componentPath, List.replicate_zero, List.append_nil] at *
    have hnone : getBaseName stale (pre ++ name) = none := by
      rcases hpre with rfl | hlast
      · rw [List.nil_append] at *
        rw [getBaseName_of_not_mem hnul (by rintro rfl; simp at hlong) hname, if_pos (.inr hlong)]
      · obtain ⟨pre', rfl⟩ : ∃ pre', pre = pre' ++ [slash] := List.getLast?_eq_some_iff.1 hlast
        rw [List.append_assoc, List.singleton_append] at *
        rw [getBaseName_slash hnul hname (by rintro rfl; simp at hlong), if_pos (.inr hlong)]
    rw [hnone]
    simp
  | succ slashes =>
    have hpath : componentPath pre name (slashes + 1) = pre ++ name ++ List.replicate slashes slash ++ [slash] := by
      rw [componentPath, List.replicate_succ']
      simp only [List.append_assoc]
    rw [hpath] at hnul hlen ⊢
    refine ⟨?_, fun b hb => getBaseName_nil hnul hb⟩
    rw [getBaseName_trailing hnul hlen]
    simp [ZeroBehind]

private theorem rejects_fatCreate {v : Volume} {stale : ByteMem} {path : List UInt8} {isDirectory : Bool}
    (hnul : NoNul path)
    (hne : path ≠ []) (hlen : path.length ≤ 255) (hbase : ∀ b, getBaseName stale path = some b → cstr b = []) :
    Rejects v (v.fatCreate stale path isDirectory) ↔ ∃ b, getBaseName stale path = some b := by
  obtain ⟨directory, hdir, -⟩ := @getParentDir_defined stale path hnul hne hlen
  cases hb : getBaseName stale path with
  | none =>
    have hcall : v.fatCreate stale path isDirectory = none := by
      rw [Volume.fatCreate, hb]
      rfl
    rw [hcall]
    simp [Rejects]
  | some b =>
    have hcall : v.fatCreate stale path isDirectory = some (INVALID_FILE_NAME, v) := by
      rw [Volume.fatCreate, hb, hdir]
      simp [hbase b hb, checkFileName]
    exact iff_of_true ⟨INVALID_FILE_NAME, hcall, by decide⟩ ⟨b, rfl⟩

private theorem rejects_fatDelete {v : Volume} {stale : ByteMem} {path : List UInt8} {isDirectory : Bool}
    (hnul : NoNul path)
    (hne : path ≠ []) (hlen : path.length ≤ 255) (hresolve : ∀ e, fatFindDirEntryFromPath v path ≠ some (.ok e))
    (herr : ∀ err, fatFindDirEntryFromPath v path = some (.error err) → err ≠ 0) :
    Rejects v (v.fatDelete stale path isDirectory) ↔
      (∃ b, getBaseName stale path = some b) ∧ (fatFindDirEntryFromPath v path).isSome := by
  obtain ⟨parentName, hparent, hnulp, hnep, hlenp⟩ := @getParentDir_defined stale path hnul hne hlen
  obtain ⟨parentParentName, hparentParent, -⟩ := @getParentDir_defined stale parentName hnulp hnep hlenp
  cases hb : getBaseName stale path with
  | none =>
    have hcall : v.fatDelete stale path isDirectory = none := by
      rw [Volume.fatDelete, hb]
      rfl
    rw [hcall]
    simp [Rejects]
  | some b =>
    cases hr : fatFindDirEntryFromPath v path with
    | none =>
      have hcall : v.fatDelete stale path isDirectory = none := by
        rw [Volume.fatDelete, hb]
        simp only [Option.bind_eq_bind, Option.bind_some, hparent, hparentParent, hr]
        rfl
      rw [hcall]
      simp [Rejects]
    | some r =>
      cases r with
      | error err =>
        have hcall : v.fatDelete stale path isDirectory = some (err, v) := by
          rw [Volume.fatDelete, hb]
          simp only [Option.bind_eq_bind, Option.bind_some, hparent, hparentParent, hr]
        rw [hcall]
        exact iff_of_true ⟨err, rfl, herr err hr⟩ ⟨⟨b, rfl⟩, rfl⟩
      | ok e => exact absurd hr (hresolve e)

private theorem fatFindDirEntryFromPath_long (v : Volume) {pre name : List UInt8} {slashes : Nat}
    (hpre : pre = [] ∨ pre.getLast? = some slash) (hname : slash ∉ name) (hlong : 11 < name.length) :
    (∀ e, fatFindDirEntryFromPath v (componentPath pre name slashes) ≠ some (.ok e)) ∧
      ∀ err, fatFindDirEntryFromPath v (componentPath pre name slashes) = some (.error err) → err ≠ 0 := by
  have hnotSpecial : ¬(componentPath pre name slashes = [tilde, slash] ∨ componentPath pre name slashes = [slash] ∨
      componentPath pre name slashes = [dot, slash]) := by
    have hlength : 12 ≤ (componentPath pre name slashes).length := by
      simp only [componentPath, List.length_append]
      omega
    rintro (h | h | h) <;> rw [h] at hlength <;> simp at hlength
  have hdrop : (componentPath pre name slashes).drop pre.length = name ++ List.replicate slashes slash := by
    rw [componentPath, List.append_assoc, List.drop_left]
  have htake : ((componentPath pre name slashes).drop pre.length).takeWhile (· ≠ slash) = name := by
    rw [hdrop, List.takeWhile_append_of_pos (by simpa using fun a ha (h : a = slash) => hname (h ▸ ha))]
    cases slashes <;> simp [List.replicate_succ]
  have hstart : pre.length = 0 ∨ (componentPath pre name slashes)[pre.length - 1]? = some slash := by
    rcases hpre with rfl | hlast
    · exact .inl rfl
    · right
      obtain ⟨pre', rfl⟩ : ∃ pre', pre = pre' ++ [slash] := List.getLast?_eq_some_iff.1 hlast
      simp [componentPath]
  rw [fatFindDirEntryFromPath, if_neg hnotSpecial]
  refine ⟨fun e => resolveFrom_ne_ok ?_ hstart (Nat.zero_le _), fun err h => ?_⟩
  rotate_left
  · rcases resolveFrom_error h with rfl | rfl
    · decide
    · decide
  rw [htake]
  exact hlong

/-- A path whose last component is too long is refused exactly when slashes follow the component and the stack holds a
zero behind the copied path; a deletion resolves the path too. -/
theorem rejected_iff (v : Volume) (stale : ByteMem) {pre name : List UInt8} {slashes : Nat}
    (hpre : pre = [] ∨ pre.getLast? = some slash) (hname : slash ∉ name) (hlong : 11 < name.length)
    (hnul : NoNul (componentPath pre name slashes)) (hlen : (componentPath pre name slashes).length ≤ 255) :
    let path := componentPath pre name slashes
    let fits := 0 < slashes ∧ ZeroBehind stale path
    let resolved := (fatFindDirEntryFromPath v path).isSome
    (Rejects v (v.fatCreateFile stale path) ↔ fits) ∧ (Rejects v (v.fatCreateDirectory stale path) ↔ fits) ∧
      (Rejects v (v.fatDeleteFile stale path) ↔ fits ∧ resolved) ∧
      (Rejects v (v.fatDeleteDir stale path) ↔ fits ∧ resolved) := by
  obtain ⟨hfits, hempty⟩ := @getBaseName_long stale pre name slashes hpre hname hlong hnul hlen
  obtain ⟨hresolve, herr⟩ := @fatFindDirEntryFromPath_long v pre name slashes hpre hname hlong
  have hne : componentPath pre name slashes ≠ [] := by
    intro h
    rw [componentPath, List.append_eq_nil_iff, List.append_eq_nil_iff] at h
    rw [h.1.2] at hlong
    simp at hlong
  have hcreate : ∀ isDirectory, Rejects v (v.fatCreate stale (componentPath pre name slashes) isDirectory) ↔ _ :=
    fun isDirectory => (rejects_fatCreate hnul hne hlen hempty).trans hfits
  have hdelete : ∀ isDirectory, Rejects v (v.fatDelete stale (componentPath pre name slashes) isDirectory) ↔ _ :=
    fun isDirectory => (rejects_fatDelete hnul hne hlen hresolve herr).trans (and_congr_left' hfits)
  exact ⟨hcreate false, hcreate true, hdelete false, hdelete true⟩

private theorem smallDisk_mounts : ∃ v, fatInit (some fun _ => 0) twoClusterDisk = some (some v) := by
  have hmount : ((fatInit (some fun _ => 0) twoClusterDisk).bind id).isSome = true := by decide +kernel
  obtain ⟨v, hv⟩ := Option.isSome_iff_exists.1 hmount
  obtain ⟨_, hinit, rfl⟩ := Option.bind_eq_some_iff.1 hv
  exact ⟨v, hinit⟩

/-- `/aaaaaaaaaaaa`: the 12 letters and their terminator are copied into 12 bytes. -/
theorem not_rejected : ∃ v, fatInit (some fun _ => 0) twoClusterDisk = some (some v) ∧
    ∀ stale, ¬Rejects v (v.fatCreateFile stale (slash :: List.replicate 12 0x61)) ∧
      ¬Rejects v (v.fatCreateDirectory stale (slash :: List.replicate 12 0x61)) ∧
      ¬Rejects v (v.fatDeleteFile stale (slash :: List.replicate 12 0x61)) ∧
      ¬Rejects v (v.fatDeleteDir stale (slash :: List.replicate 12 0x61)) := by
  obtain ⟨v, hinit⟩ := smallDisk_mounts
  refine ⟨v, hinit, fun stale => ?_⟩
  have hbase : getBaseName stale (slash :: List.replicate 12 0x61) = none := by
    have hcut := @getBaseName_slash stale [] (List.replicate 12 0x61) (by simp [NoNul, slash]) (by decide) (by decide)
    rwa [if_pos (.inr (by decide))] at hcut
  have hcreate : ∀ isDirectory, v.fatCreate stale (slash :: List.replicate 12 0x61) isDirectory = none := by
    intro isDirectory
    rw [Volume.fatCreate, hbase]
    rfl
  have hdelete : ∀ isDirectory, v.fatDelete stale (slash :: List.replicate 12 0x61) isDirectory = none := by
    intro isDirectory
    rw [Volume.fatDelete, hbase]
    rfl
  rw [Volume.fatCreateFile, Volume.fatCreateDirectory, Volume.fatDeleteFile, Volume.fatDeleteDir, hcreate, hcreate,
    hdelete, hdelete]
  simp [Rejects]

/-- `rejected_iff` for `/aaaaaaaaaaaa/` on a cleared stack. -/
theorem rejected_slash : ∃ v, fatInit (some fun _ => 0) twoClusterDisk = some (some v) ∧
    Rejects v (v.fatCreateFile (fun _ => 0) (slash :: List.replicate 12 0x61 ++ [slash])) := by
  obtain ⟨v, hinit⟩ := smallDisk_mounts
  have hiff := rejected_iff v (fun _ => 0) (.inr rfl : [slash] = [] ∨ [slash].getLast? = some slash)
    (by decide : slash ∉ List.replicate 12 (0x61 : UInt8)) (by decide)
    (by simp [NoNul, componentPath, slash] : NoNul (componentPath [slash] (List.replicate 12 0x61) 1)) (by decide)
  exact ⟨v, hinit, hiff.1.2 ⟨by decide, 0, by decide, rfl⟩⟩

end DBolOS.Fat
