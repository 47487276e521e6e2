import DBolOS.Vfs.Exclusive

/-!
# Renaming by path

`_rename` simplifies both paths, compares the directories and hands the old path to the driver's rename.  It splits the
paths in buffers that nothing ends, so that no renaming is safe from the bytes on the stack.  With all buffers cleared it
still does not reach below the root: the simplified paths start with two slashes, and the driver looks for a directory
with an empty name (`not_renames`).
-/

namespace DBolOS.Vfs

open Failing
open Fat (FileData DirEntry Volume slash dot)
open Proc (Process FileDescriptor Manager MAX_LOCAL_FD)

/-! ### Where a path leads -/

/-- The path that leads by names from the root. -/
def pathOf (names : List (List UInt8)) : List UInt8 := slash :: [slash].intercalate names

/-- The names from the root to the place that a path asks for. -/
def namesOf (wd path : List UInt8) : List (List UInt8) :=
  (lexical (if path.head? = some slash then path else wd ++ slash :: path)).2.names.reverse

section Place

variable {wd path s : List UInt8}

/-- The place that an absolute path leads to, from the moves of its components. -/
def rootedPlace (path : List UInt8) : Lexical.Place (List UInt8) :=
  Lexical.eval true ((path.splitOn slash).map moveOf)

private theorem lexical_absolute (h : path.head? = some slash) : (lexical path).2 = rootedPlace path := by
  rw [lexical, decide_eq_true h]
  rfl

private theorem rootedPlace_append (s t : List UInt8) : rootedPlace (s ++ slash :: t) =
    ((t.splitOn slash).map moveOf).foldl (Lexical.Place.step true) (rootedPlace s) := by
  rw [rootedPlace, List.splitOn_append_cons_self, List.map_append, Lexical.eval, List.foldl_append]
  rfl

private theorem rootedPlace_slash (s : List UInt8) : rootedPlace (s ++ [slash]) = rootedPlace s := by
  rw [rootedPlace_append, List.splitOn_nil]
  rfl

private theorem rootedPlace_dot (s : List UInt8) : rootedPlace (s ++ [slash, dot]) = rootedPlace s := by
  rw [rootedPlace_append]
  rfl

private theorem joinPath_place (hwd : wd.head? = some slash) (hs : joinPath wd path = some s) (hne : s ≠ []) :
    s.head? = some slash ∧ (lexical s).2.names.reverse = namesOf wd path := by
  have hwdNe : wd ≠ [] := by
    rintro rfl
    cases hwd
  unfold namesOf
  unfold joinPath at hs
  split at hs
  · exact absurd (Option.some.inj hs).symm hne
  split at hs
  · rename_i habsolute
    rw [if_pos habsolute, ← Option.some.inj hs]
    exact ⟨habsolute, rfl⟩
  rename_i habsolute
  have hasked : (wd ++ slash :: path).head? = some slash := by rw [List.head?_append_of_ne_nil _ hwdNe, hwd]
  rw [if_neg habsolute, lexical_absolute hasked]
  -- the working directory with one slash behind it
  have hfull : ∃ full, (if wd.getLast? = some slash then wd else wd ++ [slash]) ++ path = full ∧
      full.head? = some slash ∧ rootedPlace full = rootedPlace (wd ++ slash :: path) := by
    refine ⟨_, rfl, ?_, ?_⟩
    · split
      · rw [List.head?_append_of_ne_nil _ hwdNe, hwd]
      · rw [List.append_assoc, List.head?_append_of_ne_nil _ hwdNe, hwd]
    · split
      · rename_i hlast
        obtain ⟨u, rfl⟩ : ∃ u, wd = u ++ [slash] := ⟨_, (List.dropLast_append_getLast? _ hlast).symm⟩
        rw [rootedPlace_append, rootedPlace_slash, List.append_assoc, List.singleton_append, rootedPlace_append]
      · rw [List.append_assoc, List.singleton_append]
  obtain ⟨full, heq, hhead, hplace⟩ := hfull
  dsimp only at hs
  rw [heq] at hs
  rw [← hplace]
  by_cases hcut : [slash, dot].isSuffixOf full = true
  · obtain ⟨u, rfl⟩ := List.isSuffixOf_iff_suffix.1 hcut
    have hdrop : (u ++ [slash, dot]).dropLast.dropLast = u := by simp
    rw [if_pos hcut, hdrop] at hs
    rw [rootedPlace_dot]
    by_cases hu : u = []
    · rw [if_pos hu] at hs
      cases hs
      rw [hu]
      exact ⟨rfl, rfl⟩
    · rw [if_neg hu] at hs
      cases hs
      rw [List.head?_append_of_ne_nil _ hu] at hhead
      exact ⟨hhead, by rw [lexical_absolute hhead]⟩
  · have hfullNe : full ≠ [] := by
      rintro rfl
      cases hhead
    rw [if_neg hcut, if_neg hfullNe] at hs
    cases hs
    exact ⟨hhead, by rw [lexical_absolute hhead]⟩

end Place

/-! ### What the driver makes of a simplified path -/

section Driver

variable {names : List (List UInt8)} {v : Volume} {path : List UInt8}

private theorem intercalate_ne_nil (hne : names ≠ []) (hnames : ∀ a ∈ names, IsName a) :
    [slash].intercalate names ≠ [] :=
  (head_intercalate hne fun a ha => ⟨(hnames a ha).ne_nil, (hnames a ha).slash⟩).2

private theorem segments_intercalate (hne : names ≠ []) (hnames : ∀ a ∈ names, IsName a) :
    Fat.segments ([slash].intercalate names) = names := by
  induction names with
  | nil => exact absurd rfl hne
  | cons a names ih =>
    have ha := (hnames a List.mem_cons_self).slash
    have htail : ∀ b ∈ names, IsName b := fun b hb => hnames b (List.mem_cons_of_mem a hb)
    by_cases hnil : names = []
    · rw [hnil, List.intercalate_singleton]
      exact (Fat.segments_last ha).1
    · rw [List.intercalate_cons_of_ne_nil hnil, List.append_assoc, List.singleton_append,
        Fat.segments_append ha (intercalate_ne_nil hnil htail), ih hnil htail]

/-- Behind two slashes they are looked up from what answers to the empty name. -/
private theorem find_doubled (v : Volume) (hne : names ≠ []) (hnames : ∀ a ∈ names, IsName a) :
    Fat.fatFindDirEntryFromPath v (slash :: pathOf names) = Fat.walk v (Fat.rootDir v.fs) ([] :: names) := by
  have hsegments : Fat.segments (pathOf names) = [] :: names := by
    have h := Fat.segments_append (s := []) (by simp) (intercalate_ne_nil hne hnames)
    rw [segments_intercalate hne hnames] at h
    exact h
  rw [Fat.fatFindDirEntryFromPath_slash v (by simp [pathOf]), hsegments]

/-- No directory answers to the empty name in the root. -/
def NoAlias (v : Volume) : Prop :=
  ∀ e, v.fatFindDirEntry (Fat.subName []) (Fat.rootDir v.fs) = some (some e) → e.isDirectory = false

/-- Below the root nothing is found behind two slashes. -/
private theorem find_doubled_ne_ok (halias : NoAlias v) (hlen : 2 ≤ names.length) (hnames : ∀ a ∈ names, IsName a)
    (e : DirEntry) :
    Fat.fatFindDirEntryFromPath v (slash :: pathOf names) ≠ some (.ok e) := by
  match names, hlen with
  | a :: b :: names, _ =>
    rw [find_doubled v (by simp) hnames, Fat.walk, if_neg (by simp), if_neg (by simp [Fat.rootDir_isDirectory])]
    cases hfind : v.fatFindDirEntry (Fat.subName []) (Fat.rootDir v.fs) with
    | none =>
      intro h
      cases h
    | some found =>
      cases found with
      | none =>
        intro h
        cases h
      | some e' =>
        dsimp only [Option.bind_eq_bind, Option.bind_some]
        rw [Fat.walk]
        split
        · intro h
          cases h
        · rw [if_pos (by simp [halias e' hfind])]
          intro h
          cases h

/-- The simplified path starts with one slash or two. -/
private theorem simplifyPath_cases (habsolute : path.head? = some slash)
    (hnames : (lexical path).2.names.reverse = names)
    (hne : names ≠ []) : simplifyPath path = pathOf names ∨ simplifyPath path = slash :: pathOf names := by
  obtain ⟨bottom, hbottom, -, hresult⟩ := simplifyPath_absolute habsolute
  rw [hnames] at hresult
  rcases hbottom with rfl | rfl
  · exact .inl hresult
  · rw [List.singleton_append, List.intercalate_cons_of_ne_nil hne, List.nil_append, List.singleton_append] at hresult
    exact .inr hresult

private theorem pathOf_concat {dir : List (List UInt8)} (hne : dir ≠ []) (name : List UInt8) :
    pathOf (dir ++ [name]) = pathOf dir ++ slash :: name := by
  have hjoin : ∀ dir : List (List UInt8), dir ≠ [] →
      [slash].intercalate (dir ++ [name]) = [slash].intercalate dir ++ slash :: name := by
    intro dir
    induction dir with
    | nil => exact fun h => absurd rfl h
    | cons a dir ih =>
      intro _
      by_cases hnil : dir = []
      · rw [hnil]
        simp
      · rw [List.cons_append, List.intercalate_cons_of_ne_nil (by simp), ih hnil,
          List.intercalate_cons_of_ne_nil hnil]
        simp
  rw [pathOf, pathOf, hjoin dir hne, List.cons_append]

end Driver

/-! ### The call -/

namespace Kernel

variable {k k' : Kernel} {c : Nat} {stale : Nat → ByteMem} {wd oldPath newPath fullOld fullNew : List UInt8}
  {dir dir' : List (List UInt8)} {name name' : List UInt8}

/-- The old path leads to an entry; the new one asks for a name in a directory. -/
structure Asks (k : Kernel) (wd oldPath newPath : List UInt8) (dir dir' : List (List UInt8)) (name name' : List UInt8) :
    Prop where
  old : namesOf wd oldPath = dir ++ [name]
  resolves : Resolves k.volume (pathOf (dir ++ [name]))
  new : namesOf wd newPath = dir' ++ [name']

/-- A fresh legal name in the same directory. -/
structure Renameable (k : Kernel) (dir dir' : List (List UInt8)) (name' : List UInt8) : Prop where
  same : dir' = dir
  short : name'.length ≤ Fat.filenameSize
  legal : Fat.checkFileName name' = true
  fresh : ¬Resolves k.volume (pathOf (dir' ++ [name']))

/-- The call returns 0 with the effect of the driver's rename on the entry. -/
def Renames (stale : Nat → ByteMem) (k : Kernel) (oldPath newPath : List UInt8) (dir : List (List UInt8))
    (name name' : List UInt8) : Prop :=
  ∃ w k', Volume.fatRename (stale 7) k.volume (pathOf (dir ++ [name])) name' = some (Fat.SUCCESS, w) ∧
    sysRename stale k oldPath newPath = .ok (0, k') ∧ k'.volume = w

/-- The call returns an error and changes nothing. -/
def Refuses (stale : Nat → ByteMem) (k : Kernel) (oldPath newPath : List UInt8) : Prop :=
  ∃ err, sysRename stale k oldPath newPath = .ok (err, k) ∧ err < 0

/-- The call does what the paths ask for. -/
def RenamesPath (stale : Nat → ByteMem) (k : Kernel) (wd oldPath newPath : List UInt8) : Prop :=
  ∀ dir dir' name name', Asks k wd oldPath newPath dir dir' name name' →
    (Renameable k dir dir' name' → Renames stale k oldPath newPath dir name name') ∧
    (dir' ≠ dir ∨ Fat.filenameSize < name'.length → Refuses stale k oldPath newPath)

/-- Where the driver does not find the old path the call fails. -/
private theorem renameSimplified_ne (hfind : ∀ e, Fat.fatFindDirEntryFromPath k.volume fullOld ≠ some (.ok e)) :
    renameSimplified stale k fullOld fullNew ≠ .ok (0, k') := by
  have hneg : (-EINVAL : Int) ≠ 0 := by decide
  intro h
  unfold renameSimplified at h
  cases hold : getParentDir (stale 1) (stale 2) fullOld with
  | none =>
    rw [hold, Fault.of, error_bind] at h
    cases h
  | some oldDir =>
    rw [hold, Fault.of, ok_bind] at h
    cases hnew : getParentDir (stale 3) (stale 4) fullNew with
    | none =>
      rw [hnew, Fault.of, error_bind] at h
      cases h
    | some newDir =>
      rw [hnew, Fault.of, ok_bind] at h
      split at h
      · exact hneg (Prod.mk.inj (Except.ok.inj h)).1
      cases hname : getBaseNameWithLen (stale 5) (stale 6) fullNew with
      | none =>
        rw [hname, Fault.of, error_bind] at h
        cases h
      | some newName =>
        rw [hname, Fault.of, ok_bind] at h
        unfold Volume.fatRename at h
        cases hresult : Fat.fatFindDirEntryFromPath k.volume fullOld with
        | none =>
          rw [hresult] at h
          cases h
        | some result =>
          cases result with
          | ok e => exact hfind e hresult
          | error err =>
            have herr : err ≠ 0 := by
              rcases Fat.fatFindDirEntryFromPath_codes hresult with rfl | rfl <;> decide
            rw [hresult] at h
            replace h : (if err ≠ 0 then _ else _) = _ := h
            rw [if_pos herr] at h
            exact hneg (Prod.mk.inj (Except.ok.inj h)).1

private theorem renameSimplified_long (hold : NoNul fullOld) (hnew : NoNul fullNew)
    (hlong : pathSize ≤ fullOld.length ∨ pathSize ≤ fullNew.length) (r : Int × Kernel) :
    renameSimplified stale k fullOld fullNew ≠ .ok r := by
  intro h
  have hnone : ∀ {stale staleDir : ByteMem} {path : List UInt8}, NoNul path → pathSize ≤ path.length →
      getParentDir stale staleDir path = none := by
    intro stale staleDir path hpath hlen
    rw [getParentDir, splitCopy_eq_none hpath (.inr hlen)]
    rfl
  unfold renameSimplified at h
  rcases hlong with hlong | hlong
  · rw [hnone hold hlong] at h
    cases h
  · rw [hnone hnew hlong] at h
    cases hdir : getParentDir (stale 1) (stale 2) fullOld with
    | none =>
      rw [hdir] at h
      cases h
    | some oldDir =>
      rw [hdir] at h
      cases h

/-- The buffers of `_rename` are cleared. -/
def Cleared (stale : Nat → ByteMem) : Prop := ∀ i, i < 7 → stale i = fun _ => 0

section Cleared

variable {pre pre' : List UInt8} (hclear : Cleared stale) (hold : NoNul (pre ++ slash :: name)) (hname : slash ∉ name)
  (hlen : (pre ++ slash :: name).length < pathSize) (hnew : NoNul (pre' ++ slash :: name')) (hname' : slash ∉ name')
  (hlen' : (pre' ++ slash :: name').length < pathSize)

include hclear hold hname hlen hnew hname' hlen'

private theorem renameSimplified_other (hpre : pre ≠ []) (hpre' : pre' ≠ []) (hne : pre ≠ pre') :
    renameSimplified stale k (pre ++ slash :: name) (pre' ++ slash :: name') = .ok (-EINVAL, k) := by
  unfold renameSimplified
  rw [hclear 1 (by decide), hclear 2 (by decide), hclear 3 (by decide), hclear 4 (by decide),
    getParentDir_eq hold hname hlen, getParentDir_eq hnew hname' hlen', if_neg hpre, if_neg hpre', Fault.of, ok_bind,
    Fault.of, ok_bind, if_pos hne]

private theorem renameSimplified_same (heq : pre = pre') (hne : name' ≠ [])
    (hshort : name'.length ≤ Fat.filenameSize) {w : Volume}
    (hcall : Volume.fatRename (stale 7) k.volume (pre ++ slash :: name) name' = some (Fat.SUCCESS, w)) :
    ∃ k', renameSimplified stale k (pre ++ slash :: name) (pre' ++ slash :: name') = .ok (0, k') ∧ k'.volume = w := by
  subst heq
  have hsome : ∀ {α : Type} (a : α), Fault.fileSystem.of (some a) = .ok a := fun _ => rfl
  unfold renameSimplified
  rw [hclear 1 (by decide), hclear 2 (by decide), hclear 3 (by decide), hclear 4 (by decide), hclear 5 (by decide),
    hclear 6 (by decide), getParentDir_eq hold hname hlen, getParentDir_eq hnew hname' hlen',
    getBaseNameWithLen_eq hnew hname' hlen' hne hshort, hsome, ok_bind, ok_bind, if_neg (fun h => h rfl), hsome,
    ok_bind, hcall, hsome, ok_bind]
  dsimp only
  rw [if_neg (by decide)]
  cases hopened : ({ k with volume := w } : Kernel).getOpenedFd (pre ++ slash :: name) with
  | none => exact ⟨_, rfl, rfl⟩
  | some g =>
    obtain ⟨x, hx, -⟩ := inUse_iff.1 (inUse_getOpenedFd hopened)
    obtain ⟨k', hk', -, -, hvolume, -⟩ := modifyGlobal_ok hx fun x =>
      { x with path := overwritePath x.path (pre ++ slash :: name') }
    dsimp only
    rw [hk', ok_bind]
    exact ⟨k', rfl, hvolume⟩

end Cleared

/-- The string in a cleared buffer leads where the path asks. -/
private theorem WorkingDir.stackPath_place (h : WorkingDir k c wd) (hwd : wd.head? = some slash) {zeros : ByteMem}
    (hzeros : zeros = fun _ => 0) {path s : List UInt8} (hpath : NoNul path) (hs : k.stackPath zeros path = .ok s)
    (hne : s ≠ []) : s.head? = some slash ∧ (lexical s).2.names.reverse = namesOf wd path := by
  obtain ⟨-, -, p, hp, hsame, -⟩ := h.stackPath hpath hs
  obtain rfl := hsame fun _ => by rw [hzeros]
  unfold zeroedPath at hp
  split at hp
  · rename_i habsolute
    split at hp
    · cases hp
      unfold namesOf
      rw [if_pos habsolute]
      exact ⟨habsolute, rfl⟩
    · cases hp
  · rw [h.cwd, ok_bind] at hp
    exact joinPath_place hwd (Fault.of_eq_ok.1 hp) hne

private theorem WorkingDir.sysRename (h : WorkingDir k c wd) (hbuf : k.stackPath (stale 0) oldPath = .ok fullOld)
    (hjoin : Vfs.joinPath wd newPath = some fullNew) :
    sysRename stale k oldPath newPath = renameSimplified stale k (simplifyPath fullOld) (simplifyPath fullNew) := by
  unfold Kernel.sysRename
  rw [hbuf, ok_bind, h.cwd, ok_bind, hjoin]
  rfl

private theorem isName_of_namesOf {path : List UInt8} {names : List (List UInt8)} (h : namesOf wd path = names) :
    ∀ a ∈ names, IsName a := by
  intro a ha
  rw [← h] at ha
  exact isName_of_mem_lexical (List.mem_reverse.1 ha)

/-- Below the root, with cleared buffers, an entry is renamed exactly where both simplified paths start with a single
slash and fit their buffers. -/
private theorem renames_iff (h : WorkingDir k c wd) (hwd : wd.head? = some slash) (hold : NoNul oldPath)
    (hnew : NoNul newPath)
    (hclear : Cleared stale) (hasks : Asks k wd oldPath newPath dir dir' name name') (hrename : Renameable k dir dir' name')
    (hdir : dir ≠ []) (halias : NoAlias k.volume) (hbuf : k.stackPath (stale 0) oldPath = .ok fullOld) (hne : fullOld ≠ [])
    (hjoin : Vfs.joinPath wd newPath = some fullNew) (hne' : fullNew ≠ []) :
    Renames stale k oldPath newPath dir name name' ↔
      (simplifyPath fullOld = pathOf (dir ++ [name]) ∧ (pathOf (dir ++ [name])).length < pathSize) ∧
      (simplifyPath fullNew = pathOf (dir ++ [name']) ∧ (pathOf (dir ++ [name'])).length < pathSize) ∧
      ∃ w, Volume.fatRename (stale 7) k.volume (pathOf (dir ++ [name])) name' = some (Fat.SUCCESS, w) := by
  obtain rfl := hrename.same
  have hnames := isName_of_namesOf hasks.old
  have hnames' := isName_of_namesOf hasks.new
  have hname : IsName name := hnames name (by simp)
  have hname' : IsName name' := hnames' name' (by simp)
  obtain ⟨habsolute, hplace⟩ := h.stackPath_place hwd (hclear 0 (by decide)) hold hbuf hne
  obtain ⟨habsolute', hplace'⟩ := joinPath_place hwd hjoin hne'
  have hnul : NoNul (simplifyPath fullOld) := noNul_simplifyPath (h.stackPath hold hbuf).1
  have hnul' : NoNul (simplifyPath fullNew) := noNul_simplifyPath (joinPath_ends h.noNul hnew hjoin).1
  unfold Renames
  rw [h.sysRename hbuf hjoin]
  have hcases := simplifyPath_cases habsolute (hplace.trans hasks.old) (by simp)
  have hcases' := simplifyPath_cases habsolute' (hplace'.trans hasks.new) (by simp)
  constructor
  · rintro ⟨w, k', hcall, hresult, -⟩
    have hshort : ¬(pathSize ≤ (simplifyPath fullOld).length ∨ pathSize ≤ (simplifyPath fullNew).length) :=
      fun hlong => renameSimplified_long hnul hnul' hlong _ hresult
    rw [not_or, not_le, not_le] at hshort
    obtain ⟨hlen, hlen'⟩ := hshort
    rcases hcases with hold' | hdouble
    · rw [hold'] at hlen hresult hnul ⊢
      refine ⟨⟨rfl, hlen⟩, ?_, w, hcall⟩
      rcases hcases' with hnew' | hdouble'
      · rw [hnew'] at hlen' ⊢
        exact ⟨rfl, hlen'⟩
      · -- the directories differ in the number of their slashes
        rw [hdouble', pathOf_concat hdir name', ← List.cons_append] at hlen' hresult hnul'
        rw [pathOf_concat hdir name] at hlen hresult hnul
        rw [renameSimplified_other hclear hnul hname.slash hlen hnul' hname'.slash hlen' (by simp [pathOf]) (by simp)
          (fun heq => by simpa using congrArg List.length heq)] at hresult
        exact absurd (Prod.mk.inj (Except.ok.inj hresult)).1 (by decide)
    · -- the driver looks for the empty name
      have hpos := List.length_pos_of_ne_nil hdir
      refine absurd hresult (renameSimplified_ne fun e => ?_)
      rw [hdouble]
      exact find_doubled_ne_ok halias (by rw [List.length_append, List.length_singleton]; omega) hnames e
  · rintro ⟨⟨hold', hlen⟩, ⟨hnew', hlen'⟩, w, hcall⟩
    rw [hold'] at hnul ⊢
    rw [hnew'] at hnul' ⊢
    have hcall' := hcall
    rw [pathOf_concat hdir name] at hnul hlen hcall' ⊢
    rw [pathOf_concat hdir name'] at hnul' hlen' ⊢
    obtain ⟨k', hresult, hvolume⟩ := renameSimplified_same hclear hnul hname.slash hlen hnul' hname'.slash hlen' rfl
      hname'.ne_nil hrename.short hcall'
    exact ⟨w, k', hcall', hresult, hvolume⟩

/-- No renaming that the paths ask for is done for every content of the stack, and none is refused for every one.  With
cleared buffers the entries below the root are renamed by the paths that climb out of the empty component alone. -/
theorem not_renames (h : WorkingDir k c wd) (hwd : wd.head? = some slash) (hold : NoNul oldPath) (hnew : NoNul newPath)
    (hasks : Asks k wd oldPath newPath dir dir' name name')
    (hcase : Renameable k dir dir' name' ∨ dir' ≠ dir ∨ Fat.filenameSize < name'.length) :
    (¬∀ stale, RenamesPath stale k wd oldPath newPath) ∧
      ∀ stale fullOld fullNew, Cleared stale → k.stackPath (stale 0) oldPath = .ok fullOld → fullOld ≠ [] →
        Vfs.joinPath wd newPath = some fullNew → fullNew ≠ [] → Renameable k dir dir' name' → dir ≠ [] →
        NoAlias k.volume →
        (Renames stale k oldPath newPath dir name name' ↔
          (simplifyPath fullOld = pathOf (dir ++ [name]) ∧ (pathOf (dir ++ [name])).length < pathSize) ∧
          (simplifyPath fullNew = pathOf (dir ++ [name']) ∧ (pathOf (dir ++ [name'])).length < pathSize) ∧
          ∃ w, Volume.fatRename (stale 7) k.volume (pathOf (dir ++ [name])) name' = some (Fat.SUCCESS, w)) := by
  constructor
  · intro hall
    obtain ⟨f, hf⟩ := sysRename_endless h hold newPath
    obtain ⟨hrenames, hrefuses⟩ := hall _ dir dir' name name' hasks
    rcases hcase with hrename | hrefuse
    · obtain ⟨w, k', -, hcall, -⟩ := hrenames hrename
      rw [hf] at hcall
      cases hcall
    · obtain ⟨err, hcall, -⟩ := hrefuses hrefuse
      rw [hf] at hcall
      cases hcall
  · intro stale fullOld fullNew hclear hbuf hne hjoin hne' hrename hdir halias
    exact renames_iff h hwd hold hnew hclear hasks hrename hdir halias hbuf hne hjoin hne'

/-- A directory `d` that holds a file `a`. -/
def nestedDisk : ByteMem :=
  Fat.image [0xFFF8, 0xFFFF, 0xFFF8, 0xFFF8] fun c =>
    if c = 0 then oneDirectory.toBytes
    else if c = 2 then (Volume.dotEntry [dot] 2).toBytes ++ (Volume.dotEntry [dot, dot] 0).toBytes ++
      { DirEntry.zero with name := DirEntry.nameOf [0x61], startCluster := 3, fileSize := 4 }.toBytes
    else []

/-- A file of that directory. -/
def nested (b : UInt8) : List UInt8 := [slash, 0x64, slash, b]

/-- The first process asks for `/d/b` as the new path of `/d/a`, which the driver can do. -/
private theorem startup_nested : ∃ v k₀ k, boot v = .ok k₀ ∧ Machine.Run exec (fun _ _ => True) k₀ startup k ∧
    WorkingDir k 10 [slash] ∧ Asks k [slash] (nested 0x61) (nested 0x62) [[0x64]] [[0x64]] [0x61] [0x62] ∧
    Renameable k [[0x64]] [[0x64]] [0x62] ∧
    (∃ w, Volume.fatRename (fun _ => 0) k.volume (nested 0x61) [0x62] = some (Fat.SUCCESS, w)) ∧
    (sysRename (fun _ _ => 0) k (nested 0x61) (nested 0x62)).toOption.map Prod.fst = some (-EINVAL) := by
  have hrun : ((Fat.fatInit (some fun _ => 0) nestedDisk).bind fun mounted => mounted.bind fun v =>
      (startup.foldlM exec ⟨Manager.boot, Vector.ofFn fun g => bootEntry g, v⟩).bind fun k =>
        (Fat.fatFindDirEntryFromPath k.volume (nested 0x61)).bind fun old => old.toOption.bind fun _ =>
          (Fat.fatFindDirEntryFromPath k.volume (nested 0x62)).bind fun new =>
            (Volume.fatRename (fun _ => 0) k.volume (nested 0x61) [0x62]).map fun renamed =>
              decide (k.manager.currentProcess = some 10 ∧ (k.manager.proc 10).map Process.cwd = some [slash] ∧
                new.toOption = none ∧ renamed.1 = Fat.SUCCESS ∧
                (sysRename (fun _ _ => 0) k (nested 0x61) (nested 0x62)).toOption.map Prod.fst = some (-EINVAL))) =
      some true := by
    decide +kernel
  simp only [Option.bind_eq_some_iff, Option.map_eq_some_iff, decide_eq_true_eq] at hrun
  obtain ⟨_, -, v, rfl, k, hk, old, hold, e, he, new, hnew, ⟨ret, w⟩, hrename, hcurrent, hcwd, hnone, rfl, hcall⟩ := hrun
  refine ⟨v, _, k, boot_eq v, Machine.run_iff_foldlM.2 hk,
    ⟨hcurrent, Option.map_eq_some_iff.2 hcwd, by simp [NoNul, slash], by simp, by simp [pathSize]⟩,
    ⟨by decide, ⟨e, ?_⟩, by decide⟩, ⟨rfl, by decide, by decide, ?_⟩, ⟨w, hrename⟩, Option.map_eq_some_iff.2 hcall⟩
  · cases old with
    | error err => cases he
    | ok e' =>
      cases he
      exact hold
  · rintro ⟨e', he'⟩
    rw [show pathOf ([[0x64]] ++ [[0x62]]) = nested 0x62 by decide, hnew] at he'
    cases he'
    cases hnone

/-- With zeros on the stack `/d/a` is not renamed. -/
theorem not_renamesPath : ∃ v k₀ k, boot v = .ok k₀ ∧ Machine.Run exec (fun _ _ => True) k₀ startup k ∧
    (∃ w, Volume.fatRename (fun _ => 0) k.volume (nested 0x61) [0x62] = some (Fat.SUCCESS, w)) ∧
    (sysRename (fun _ _ => 0) k (nested 0x61) (nested 0x62)).toOption.map Prod.fst = some (-EINVAL) ∧
    ¬RenamesPath (fun _ _ => 0) k [slash] (nested 0x61) (nested 0x62) := by
  obtain ⟨v, k₀, k, h₀, hrun, -, hasks, hrename, hdriver, hcall⟩ := startup_nested
  refine ⟨v, k₀, k, h₀, hrun, hdriver, hcall, ?_⟩
  intro hright
  obtain ⟨w, k', -, hok, -⟩ := (hright _ _ _ _ hasks).1 hrename
  rw [hok] at hcall
  have hret : (0 : Int) = -EINVAL := Option.some.inj hcall
  exact absurd hret (by decide)

/-- `not_renames` for `/d/a`. -/
theorem not_renames_nested : ∃ v k₀ k, boot v = .ok k₀ ∧ Machine.Run exec (fun _ _ => True) k₀ startup k ∧
    ¬∀ stale, RenamesPath stale k [slash] (nested 0x61) (nested 0x62) := by
  obtain ⟨v, k₀, k, h₀, hrun, h, hasks, hrename, -⟩ := startup_nested
  have hnul : ∀ b : UInt8, b ≠ 0 → NoNul (nested b) := fun b hb => by simp [NoNul, nested, slash, hb]
  exact ⟨v, k₀, k, h₀, hrun,
    (not_renames h rfl (hnul _ (by decide)) (hnul _ (by decide)) hasks (.inl hrename)).1⟩

end Kernel

end DBolOS.Vfs
