import DBolOS.Fat.Spec
import DBolOS.Fat.Resolve

/-!
# Slots of a directory

A directory is the list of the slots of its chain (`View.locs`).  The scan of the model finds the first slot that passes
its test, and storing, replacing and removing a record write that slot alone.
-/

namespace DBolOS.Fat

open ByteMem

/-- A slot: its cluster and its index there. -/
abbrev Loc := Nat × Nat

/-- The slot is not in use: its name is empty. -/
def DirEntry.unused (e : DirEntry) : Bool := decide (e.nameStr = [])

/-- The test of `fat_find_dir_entry` on a record. -/
def DirEntry.answersTo (name : List UInt8) (e : DirEntry) : Bool :=
  decide (e.nameStr = name ∧ (name.length = filenameSize → e.attr = 0))

namespace View

def slot (s : View) (l : Loc) : DirEntry := slotAt (s.data l.1) l.2

/-- The slots of a list of clusters, in the order of a scan. -/
def locs (s : View) (cs : List Nat) : List Loc :=
  cs.flatMap fun c => (List.range s.fs.slotsPerCluster).map fun i => (c, i)

/-- Overwrite a slot. -/
def putSlot (s : View) (l : Loc) (e : DirEntry) : View := s.write l.1 (splice (s.data l.1) (32 * l.2) e.toBytes)

/-- The geometry is sound, and table and clusters have the sizes it says. -/
structure Sized (s : View) : Prop where
  sound : s.fs.Sound
  table : s.fat.length = s.fs.totalFatEntries
  cluster : ∀ c, c < s.fat.length → (s.data c).length = 512 * s.fs.sectorsPerCluster

@[simp] theorem putSlot_fs (s : View) (l : Loc) (e : DirEntry) : (s.putSlot l e).fs = s.fs := rfl

@[simp] theorem putSlot_fat (s : View) (l : Loc) (e : DirEntry) : (s.putSlot l e).fat = s.fat := rfl

theorem mem_locs {s : View} {cs : List Nat} {l : Loc} : l ∈ s.locs cs ↔ l.1 ∈ cs ∧ l.2 < s.fs.slotsPerCluster := by
  obtain ⟨c, i⟩ := l
  simp only [locs, List.mem_flatMap, List.mem_map, List.mem_range, Prod.mk.injEq]
  constructor
  · rintro ⟨c', hc', i', hi', rfl, rfl⟩
    exact ⟨hc', hi'⟩
  · rintro ⟨hc, hi⟩
    exact ⟨c, hc, i, hi, rfl, rfl⟩

@[simp] theorem locs_append (s : View) (cs ds : List Nat) : s.locs (cs ++ ds) = s.locs cs ++ s.locs ds :=
  List.flatMap_append

theorem slotsPerCluster_eq {fs : Fat16Fs} (h : fs.Sound) : fs.slotsPerCluster = 16 * fs.sectorsPerCluster := by
  rw [Fat16Fs.slotsPerCluster, h.sector]

end View

/-! ### Slots of a buffer -/

private theorem slotAt_splice_self {buffer : List UInt8} {i : Nat} (e : DirEntry) (hi : 32 * i + 32 ≤ buffer.length) :
    slotAt (splice buffer (32 * i) e.toBytes) i = e := by
  have hlen : (buffer.take (32 * i)).length = 32 * i := by
    rw [List.length_take]
    omega
  rw [slotAt, splice, List.append_assoc, List.drop_left' hlen, List.take_left' (by simp), DirEntry.ofBytes_toBytes]

private theorem slotAt_splice_of_ne {buffer : List UInt8} {i j : Nat} (e : DirEntry) (hi : 32 * i + 32 ≤ buffer.length)
    (hij : j ≠ i) : slotAt (splice buffer (32 * i) e.toBytes) j = slotAt buffer j := by
  have hlen : (buffer.take (32 * i)).length = 32 * i := by
    rw [List.length_take]
    omega
  rw [slotAt, slotAt, splice]
  congr 1
  rcases Nat.lt_or_gt_of_ne hij with h | h
  · rw [List.append_assoc, List.drop_append_of_le_length (by omega), List.take_append_of_le_length (by
      rw [List.length_drop]; omega), List.drop_take, List.take_take]
    congr 1
    omega
  · have hpre : (buffer.take (32 * i) ++ e.toBytes).length = 32 * i + 32 := by simp; omega
    rw [List.drop_append, List.drop_eq_nil_of_le (by rw [hpre]; omega), List.nil_append, List.drop_drop, hpre,
      DirEntry.length_toBytes]
    congr 2
    omega

namespace View

variable {s : View}

private theorem Sized.slot_le (hs : s.Sized) {l : Loc} (hc : l.1 < s.fat.length) (hi : l.2 < s.fs.slotsPerCluster) :
    32 * l.2 + 32 ≤ (s.data l.1).length := by
  rw [hs.cluster _ hc]
  rw [slotsPerCluster_eq hs.sound] at hi
  omega

theorem slot_putSlot_self (hs : s.Sized) {l : Loc} (e : DirEntry) (hc : l.1 < s.fat.length)
    (hi : l.2 < s.fs.slotsPerCluster) : (s.putSlot l e).slot l = e := by
  rw [slot, putSlot, write_data, Function.update_self]
  exact slotAt_splice_self e (hs.slot_le hc hi)

theorem slot_putSlot_of_ne (hs : s.Sized) {l l' : Loc} (e : DirEntry) (hc : l.1 < s.fat.length)
    (hi : l.2 < s.fs.slotsPerCluster) (hne : l' ≠ l) : (s.putSlot l e).slot l' = s.slot l' := by
  rw [slot, slot, putSlot, write_data]
  by_cases hcl : l'.1 = l.1
  · rw [hcl, Function.update_self]
    refine slotAt_splice_of_ne e (hs.slot_le hc hi) fun hil => hne ?_
    exact Prod.ext hcl hil
  · rw [Function.update_of_ne hcl]

theorem data_putSlot_of_ne {l : Loc} {c : Nat} (e : DirEntry) (hc : c ≠ l.1) : (s.putSlot l e).data c = s.data c := by
  rw [putSlot, write_data, Function.update_of_ne hc]

theorem slot_claim_of_ne {l : Loc} {f : Nat} (hlf : l.1 ≠ f) : (s.claim f).slot l = s.slot l :=
  congrArg (fun d => slotAt d l.2) (Function.update_of_ne hlf _ _)

private theorem Sized.setFat (hs : s.Sized) (i : Nat) (x : UInt16) : (s.setFat i x).Sized :=
  ⟨hs.sound, by rw [setFat_fat, List.length_set]; exact hs.table, fun c hc => hs.cluster c (by simpa using hc)⟩

private theorem Sized.write (hs : s.Sized) {c : Nat} {bs : List UInt8}
    (hlen : bs.length = 512 * s.fs.sectorsPerCluster) :
    (s.write c bs).Sized := by
  refine ⟨hs.sound, hs.table, fun c' hc' => ?_⟩
  rw [write_data]
  by_cases h : c' = c
  · rw [h, Function.update_self]
    exact hlen
  · rw [Function.update_of_ne h]
    exact hs.cluster c' hc'

private theorem Sized.claim (hs : s.Sized) (n : Nat) : (s.claim n).Sized := by
  refine (hs.setFat n _).write ?_
  rw [zeroes, List.length_replicate, Fat16Fs.bytesPerCluster, hs.sound.sector]
  rfl

theorem Sized.extend (hs : s.Sized) (last n : Nat) : (s.extend last n).Sized := (hs.setFat last _).claim n

theorem Sized.freeAll (hs : s.Sized) (cs : List Nat) : (s.freeAll cs).Sized := by
  induction cs generalizing s with
  | nil => exact hs
  | cons c cs ih => exact ih (hs.setFat c _)

end View

/-! ### Scans -/

namespace Volume

variable {v : Volume}

theorem view_sized (hs : v.fs.Sound) : v.view.Sized := by
  refine ⟨hs, v.fatTable_length, fun c hc => ?_⟩
  rw [view_data hc]
  exact v.length_data c

/-- The slot at which a scan stops. -/
def hitAt (v : Volume) (l : Loc) : Hit := ⟨l.1, v.view.data l.1, l.2⟩

@[simp] theorem hitAt_entry (l : Loc) : (v.hitAt l).entry = v.view.slot l := rfl

private theorem length_overwrite {l : Loc} (e : DirEntry) (hs : v.fs.Sound) (hc : l.1 < v.fatTable.length)
    (hi : l.2 < v.fs.slotsPerCluster) : ((v.hitAt l).overwrite e).length = 512 * v.fs.sectorsPerCluster := by
  have hsized := view_sized hs
  rw [Hit.overwrite, length_splice]
  · exact hsized.cluster _ hc
  · rw [DirEntry.length_toBytes]
    exact hsized.slot_le hc hi

private theorem scanSlots_spec (test : DirEntry → Option Bool) (p : DirEntry → Bool) (buffer : List UInt8) {n i : Nat}
    (htest : ∀ j, i ≤ j → j < i + n → test (slotAt buffer j) = some (p (slotAt buffer j))) :
    scanSlots test buffer n i = some ((List.range' i n).find? fun j => p (slotAt buffer j)) := by
  induction n generalizing i with
  | zero => rfl
  | succ n ih =>
    rw [scanSlots, htest i (le_refl _) (by omega), List.range'_succ, List.find?_cons]
    cases p (slotAt buffer i) with
    | true => rfl
    | false => exact ih fun j h1 h2 => htest j (by omega) (by omega)

/-- A scan with a test that is defined on every slot finds the first one that passes it. -/
private theorem scanClusters_spec {test : DirEntry → Option Bool} {p : DirEntry → Bool} {start n i : Nat}
    {cs : List Nat} (hs : v.fs.Sound) (h : v.view.Chain start cs) (hn : cs.length < n + i) (hi : i ≤ cs.length)
    (htest : ∀ l ∈ v.view.locs cs, test (v.view.slot l) = some (p (v.view.slot l))) :
    v.scanClusters test start n i =
      some (((v.view.locs (cs.drop i)).find? fun l => p (v.view.slot l)).map v.hitAt) := by
  induction n generalizing i with
  | zero => omega
  | succ n ih =>
    rw [scanClusters, getIthCluster_spec h]
    cases hc : cs[i]? with
    | none =>
      rw [List.drop_eq_nil_of_le (List.getElem?_eq_none_iff.1 hc)]
      rfl
    | some c =>
      have hilt : i < cs.length := (List.getElem?_eq_some_iff.1 hc).1
      have hmem : c ∈ cs := List.mem_of_getElem? hc
      have hread := fatReadDataCluster_spec (View.Chain.lt_length h hmem) (length_zeroBuffer hs)
      have hslots := scanSlots_spec test p (v.view.data c) (n := v.fs.slotsPerCluster) (i := 0) fun j _ hj =>
        htest (c, j) (View.mem_locs.2 ⟨hmem, by simpa using hj⟩)
      have hdrop : cs.drop i = c :: cs.drop (i + 1) := by
        rw [List.drop_eq_getElem_cons hilt, (List.getElem?_eq_some_iff.1 hc).2]
      rw [hdrop, View.locs, List.flatMap_cons, List.find?_append, List.find?_map]
      simp only [Option.bind_eq_bind, Option.bind_some, hread, hslots, ← List.range_eq_range']
      cases hfind : (List.range v.fs.slotsPerCluster).find? fun j => p (slotAt (v.view.data c) j) with
      | some j =>
        have : (List.range v.view.fs.slotsPerCluster).find? ((fun l => p (v.view.slot l)) ∘ fun i => (c, i)) = some j :=
          hfind
        rw [this]
        rfl
      | none =>
        have : (List.range v.view.fs.slotsPerCluster).find? ((fun l => p (v.view.slot l)) ∘ fun i => (c, i)) = none :=
          hfind
        rw [this]
        exact ih (by omega) hilt

theorem scanDir_spec {test : DirEntry → Option Bool} {p : DirEntry → Bool} {dir : DirEntry} {cs : List Nat}
    (hs : v.fs.Sound) (h : v.view.Chain dir.startCluster.toNat cs)
    (htest : ∀ l ∈ v.view.locs cs, test (v.view.slot l) = some (p (v.view.slot l))) :
    v.scanDir test dir = some (((v.view.locs cs).find? fun l => p (v.view.slot l)).map v.hitAt) := by
  have := length_le_walkFuel h
  exact scanClusters_spec hs h (by omega) (Nat.zero_le _) htest

/-! ### The four searches -/

/-- The first slot of the clusters `cs` that passes `p`. -/
def firstSlot (v : Volume) (cs : List Nat) (p : DirEntry → Bool) : Option Loc :=
  (v.view.locs cs).find? fun l => p (v.view.slot l)

theorem firstSlot_eq_some {cs : List Nat} {p : DirEntry → Bool} {l : Loc} (h : v.firstSlot cs p = some l) :
    l.1 ∈ cs ∧ l.2 < v.fs.slotsPerCluster ∧ p (v.view.slot l) := by
  obtain ⟨hc, hi⟩ := View.mem_locs.1 (List.mem_of_find?_eq_some h)
  exact ⟨hc, hi, List.find?_some (p := fun l => p (v.view.slot l)) h⟩

theorem firstSlot_eq_none {cs : List Nat} {p : DirEntry → Bool} (h : v.firstSlot cs p = none) {l : Loc}
    (hc : l.1 ∈ cs) (hi : l.2 < v.fs.slotsPerCluster) : ¬ p (v.view.slot l) :=
  List.find?_eq_none.1 h l (View.mem_locs.2 ⟨hc, hi⟩)

theorem nameMatches_nil : nameMatches [0] = fun e => some e.unused := by
  funext e
  have hnil : NoNul [] := by simp [NoNul]
  have hrecord : ([] : List UInt8).length < e.toBytes.length := by
    rw [DirEntry.length_toBytes]
    simp
  obtain ⟨r, hr, hiff⟩ := strncmp_eq_zero_iff [] hnil (Nat.zero_le filenameSize) hrecord
  rw [DirEntry.toBytes_eq_append_iff hnil (by simp)] at hiff
  rw [nameMatches, show ([0] : List UInt8) = [] ++ 0 :: [] from rfl, hr, Option.map_eq_map, Option.map_some,
    Option.some.injEq, DirEntry.unused, Bool.eq_iff_iff, beq_iff_eq, decide_eq_true_iff, hiff]
  simp

theorem fatFindDirEntry_spec {name : List UInt8} {dir : DirEntry} {cs : List Nat} (hs : v.fs.Sound)
    (h : v.view.Chain dir.startCluster.toNat cs) (hnul : NoNul name) (hlen : name.length ≤ filenameSize) :
    v.fatFindDirEntry (subName name) dir = some ((v.firstSlot cs (DirEntry.answersTo name)).map v.view.slot) := by
  have hscan := scanDir_spec (p := DirEntry.answersTo name) hs h fun l _ => nameMatches_subName hnul hlen (v.view.slot l)
  rw [fatFindDirEntry, hscan, firstSlot]
  simp only [Option.bind_eq_bind, Option.bind_some, Option.map_map]
  rfl

/-- A record is stored in the first unused slot, or in a new cluster behind the last one. -/
theorem fatAddDirEntry_spec {dir new : DirEntry} {cs : List Nat} {last : Nat} (hs : v.fs.Sound)
    (h : v.view.Chain dir.startCluster.toNat cs) (hlast : cs.getLast? = some last) :
    match v.firstSlot cs DirEntry.unused, v.fatFindFree with
    | some l, _ => ∃ w, v.fatAddDirEntry dir new = some (true, w) ∧ w.view = v.view.putSlot l new
    | none, none => v.fatAddDirEntry dir new = some (false, v)
    | none, some n =>
      ∃ w, v.fatAddDirEntry dir new = some (true, w) ∧ w.view = (v.view.extend last n).putSlot (n, 0) new := by
  have hscan : v.scanDir (nameMatches [0]) dir = some ((v.firstSlot cs DirEntry.unused).map v.hitAt) :=
    scanDir_spec hs h fun l _ => by rw [nameMatches_nil]
  have hsized := view_sized hs
  cases hslot : v.firstSlot cs DirEntry.unused with
  | some l =>
    obtain ⟨hc, hi, _⟩ := firstSlot_eq_some hslot
    have hc' := View.Chain.lt_length h hc
    obtain ⟨w, hw, hview⟩ := fatWriteDataCluster_spec hs hc' (length_overwrite new hs hc' hi)
    refine ⟨w, ?_, hview⟩
    rw [hslot, Option.map_some] at hscan
    simp only [fatAddDirEntry, hscan, Option.bind_eq_bind, Option.bind_some]
    rw [show (v.hitAt l).cluster = l.1 from rfl, hw]
    rfl
  | none =>
    rw [hslot, Option.map_none] at hscan
    cases hfree : v.fatFindFree with
    | none => simp [fatAddDirEntry, hscan, hfree]
    | some n =>
      obtain ⟨_, hn⟩ := fatFindFree_eq_some hfree
      obtain ⟨u, hu, hviewu⟩ := fatUpdateChain_spec hs h hlast hn
      have hfs : u.fs = v.fs := congrArg View.fs hviewu
      have hsu : u.fs.Sound := hfs ▸ hs
      have hnu : n < u.fatTable.length := by
        rw [u.fatTable_length, hfs, ← v.fatTable_length]
        exact hn
      have hread := fatReadDataCluster_spec hnu (length_zeroBuffer hsu)
      have hlen : (Hit.overwrite ⟨n, u.view.data n, 0⟩ new).length = 512 * u.fs.sectorsPerCluster := by
        have hcluster := (view_sized hsu).cluster n hnu
        have hone := hsu.cluster
        rw [view_fs] at hcluster
        rw [Hit.overwrite, length_splice]
        · exact hcluster
        · show 32 * 0 + new.toBytes.length ≤ (u.view.data n).length
          rw [hcluster, DirEntry.length_toBytes]
          omega
      obtain ⟨w, hw, hview⟩ := fatWriteDataCluster_spec hsu hnu hlen
      refine ⟨w, ?_, ?_⟩
      · simp [fatAddDirEntry, hscan, hfree, hu, hread, hw]
      · rw [hview, View.putSlot, hviewu]
        rfl

/-- A record found by `strcmp` is replaced. -/
theorem fatUpdateDirEntry_spec {name : List UInt8} {dir : DirEntry} (new : DirEntry) {cs : List Nat}
    {p : DirEntry → Bool} (hs : v.fs.Sound) (h : v.view.Chain dir.startCluster.toNat cs)
    (htest : ∀ l ∈ v.view.locs cs, nameEquals name (v.view.slot l) = some (p (v.view.slot l))) :
    match v.firstSlot cs p with
    | some l => ∃ w, v.fatUpdateDirEntry name dir new = some (true, w) ∧ w.view = v.view.putSlot l new
    | none => v.fatUpdateDirEntry name dir new = some (false, v) := by
  have hscan := scanDir_spec hs h htest
  have hsized := view_sized hs
  rw [← firstSlot] at hscan
  cases hslot : v.firstSlot cs p with
  | some l =>
    obtain ⟨hc, hi, _⟩ := firstSlot_eq_some hslot
    have hc' := View.Chain.lt_length h hc
    obtain ⟨w, hw, hview⟩ := fatWriteDataCluster_spec hs hc' (length_overwrite new hs hc' hi)
    refine ⟨w, ?_, hview⟩
    rw [hslot, Option.map_some] at hscan
    simp only [fatUpdateDirEntry, hscan, Option.bind_eq_bind, Option.bind_some]
    rw [show (v.hitAt l).cluster = l.1 from rfl, hw]
    rfl
  | none =>
    rw [hslot, Option.map_none] at hscan
    simp [fatUpdateDirEntry, hscan]

end Volume

end DBolOS.Fat
