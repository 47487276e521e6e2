import DBolOS.Fat.Table

/-!
# Directories

The four functions of `fat.c` that search a directory for a record share one scan over the clusters of its chain and
the slots of each cluster (`scanDir`); they differ in the test on the slot and in what they do with the slot found.
-/

namespace DBolOS.Fat

/-- A slot found in a directory: its cluster, the buffer the cluster was read into and its index there. -/
structure Hit where
  cluster : Nat
  buffer : List UInt8
  slot : Nat

def slotAt (buffer : List UInt8) (i : Nat) : DirEntry := DirEntry.ofBytes ((buffer.drop (32 * i)).take 32)

def Hit.entry (h : Hit) : DirEntry := slotAt h.buffer h.slot

/-- The buffer with the record of the slot overwritten. -/
def Hit.overwrite (h : Hit) (e : DirEntry) : List UInt8 := ByteMem.splice h.buffer (32 * h.slot) e.toBytes

namespace Volume

/-- The loop over the slots of one cluster, with `n` slots left. -/
def scanSlots (test : DirEntry → Option Bool) (buffer : List UInt8) : Nat → Nat → Option (Option Nat)
  | 0, _ => some none
  | n + 1, i => do
    if ← test (slotAt buffer i) then some (some i) else scanSlots test buffer n (i + 1)

/-- The loop over the clusters of a directory, from its `i`-th one. -/
def scanClusters (v : Volume) (test : DirEntry → Option Bool) (start : Nat) : Nat → Nat → Option (Option Hit)
  | 0, _ => none
  | n + 1, i => do
    match ← v.getIthCluster start i with
    | none => some none
    | some cluster =>
      let buffer ← v.fatReadDataCluster cluster v.zeroBuffer
      match ← scanSlots test buffer v.fs.slotsPerCluster 0 with
      | some slot => some (some ⟨cluster, buffer, slot⟩)
      | none => scanClusters v test start n (i + 1)

/-- The first slot of a directory that passes `test`. -/
def scanDir (v : Volume) (test : DirEntry → Option Bool) (dir : DirEntry) : Option (Option Hit) :=
  v.scanClusters test dir.startCluster.toNat (v.walkFuel + 1) 0

/-! ### What a scan finds -/

theorem scanSlots_eq_some {test : DirEntry → Option Bool} {buffer : List UInt8} {n i j : Nat}
    (h : scanSlots test buffer n i = some (some j)) : i ≤ j ∧ j < i + n ∧ test (slotAt buffer j) = some true := by
  induction n generalizing i with
  | zero => cases h
  | succ n ih =>
    simp only [scanSlots, Option.bind_eq_bind, Option.bind_eq_some_iff] at h
    obtain ⟨b, hb, h⟩ := h
    cases b with
    | true =>
      cases h
      exact ⟨le_refl _, by omega, hb⟩
    | false =>
      obtain ⟨h1, h2, h3⟩ := ih h
      exact ⟨by omega, by omega, h3⟩

/-- A stronger test passes no slot where a weaker one passes none, and the first one of these when it passes it. -/
private theorem scanSlots_of_imp {p q : DirEntry → Bool} (himp : ∀ e, p e → q e) (buffer : List UInt8) {n i : Nat} :
    (scanSlots (fun e => some (q e)) buffer n i = some none → scanSlots (fun e => some (p e)) buffer n i = some none) ∧
      ∀ j, scanSlots (fun e => some (q e)) buffer n i = some (some j) → p (slotAt buffer j) →
        scanSlots (fun e => some (p e)) buffer n i = some (some j) := by
  induction n generalizing i with
  | zero => exact ⟨id, fun _ h => by cases h⟩
  | succ n ih =>
    simp only [scanSlots, Option.bind_eq_bind, Option.bind_some]
    by_cases hq : q (slotAt buffer i)
    · simp only [hq, ↓reduceIte, Option.some.injEq, reduceCtorEq, false_implies, true_and]
      rintro j rfl hp
      simp [hp]
    · have hp : ¬ p (slotAt buffer i) := fun h => hq (himp _ h)
      simp only [hq, hp, Bool.false_eq_true, ↓reduceIte]
      exact ih

private theorem scanClusters_eq_some {v : Volume} {test : DirEntry → Option Bool} {start n i : Nat} {hit : Hit}
    (h : v.scanClusters test start n i = some (some hit)) : test hit.entry = some true := by
  induction n generalizing i with
  | zero => cases h
  | succ n ih =>
    simp only [scanClusters, Option.bind_eq_bind, Option.bind_eq_some_iff] at h
    obtain ⟨oc, _, h⟩ := h
    cases oc with
    | none => cases h
    | some c =>
      simp only [Option.bind_eq_some_iff] at h
      obtain ⟨buffer, _, slot, hslot, h⟩ := h
      cases slot with
      | none => exact ih h
      | some slot =>
        cases h
        exact (scanSlots_eq_some hslot).2.2

private theorem scanClusters_of_imp {v : Volume} {p q : DirEntry → Bool} (himp : ∀ e, p e → q e) {start n i : Nat} :
    (v.scanClusters (fun e => some (q e)) start n i = some none →
        v.scanClusters (fun e => some (p e)) start n i = some none) ∧
      ∀ hit, v.scanClusters (fun e => some (q e)) start n i = some (some hit) → p hit.entry →
        v.scanClusters (fun e => some (p e)) start n i = some (some hit) := by
  induction n generalizing i with
  | zero => exact ⟨id, fun _ h => by cases h⟩
  | succ n ih =>
    simp only [scanClusters, Option.bind_eq_bind]
    cases hc : v.getIthCluster start i with
    | none => exact ⟨id, fun _ h => by cases h⟩
    | some oc =>
      cases oc with
      | none => exact ⟨id, fun _ h => by cases h⟩
      | some c =>
        simp only [Option.bind_some]
        cases hbuf : v.fatReadDataCluster c v.zeroBuffer with
        | none => exact ⟨id, fun _ h => by cases h⟩
        | some buffer =>
          simp only [Option.bind_some]
          obtain ⟨hnone, hsome⟩ := scanSlots_of_imp (n := v.fs.slotsPerCluster) (i := 0) himp buffer
          cases hslot : scanSlots (fun e => some (q e)) buffer v.fs.slotsPerCluster 0 with
          | none => exact ⟨fun h => (by cases h), fun _ h => (by cases h)⟩
          | some slot =>
            cases slot with
            | none =>
              rw [hnone hslot]
              exact ih
            | some slot =>
              refine ⟨fun h => (by cases h), ?_⟩
              intro hit h hp
              cases h
              rw [hsome slot hslot hp]
              rfl

theorem scanDir_eq_some {v : Volume} {test : DirEntry → Option Bool} {dir : DirEntry} {hit : Hit}
    (h : v.scanDir test dir = some (some hit)) : test hit.entry = some true := scanClusters_eq_some h

theorem scanDir_none_of_imp {v : Volume} {p q : DirEntry → Bool} (himp : ∀ e, p e → q e) {dir : DirEntry}
    (h : v.scanDir (fun e => some (q e)) dir = some none) : v.scanDir (fun e => some (p e)) dir = some none :=
  (scanClusters_of_imp himp).1 h

theorem scanDir_some_of_imp {v : Volume} {p q : DirEntry → Bool} (himp : ∀ e, p e → q e) {dir : DirEntry} {hit : Hit}
    (h : v.scanDir (fun e => some (q e)) dir = some (some hit)) (hp : p hit.entry) :
    v.scanDir (fun e => some (p e)) dir = some (some hit) :=
  (scanClusters_of_imp himp).2 hit h hp

/-! ### The searches -/

/-- `!strncmp(dir[i].name, name, FAT16_FILENAME_SIZE)`. -/
def nameMatches (name : List UInt8) (e : DirEntry) : Option Bool := (· == 0) <$> strncmp filenameSize e.toBytes name

/-- `!strcmp(dir[i].name, name)`. -/
def nameEquals (name : List UInt8) (e : DirEntry) : Option Bool := (· == 0) <$> strcmp e.toBytes name

def fatFindDirEntry (v : Volume) (name : List UInt8) (currentDir : DirEntry) : Option (Option DirEntry) := do
  let hit ← v.scanDir (nameMatches name) currentDir
  some (hit.map Hit.entry)

/-- Store the record in the first slot whose name is empty, in a new cluster when there is none. -/
def fatAddDirEntry (v : Volume) (parentDir newEntry : DirEntry) : Option (Bool × Volume) := do
  match ← v.scanDir (nameMatches [0]) parentDir with
  | some hit =>
    let v ← v.fatWriteDataCluster hit.cluster (hit.overwrite newEntry)
    some (true, v)
  | none =>
    match v.fatFindFree with
    | none => some (false, v)
    | some newFatIndex =>
      let v ← v.fatUpdateChain parentDir.startCluster.toNat newFatIndex
      let buffer ← v.fatReadDataCluster newFatIndex v.zeroBuffer
      let v ← v.fatWriteDataCluster newFatIndex (Hit.overwrite ⟨newFatIndex, buffer, 0⟩ newEntry)
      some (true, v)

def fatUpdateDirEntry (v : Volume) (name : List UInt8) (currentDir newEntry : DirEntry) :
    Option (Bool × Volume) := do
  match ← v.scanDir (nameEquals name) currentDir with
  | none => some (false, v)
  | some hit =>
    let v ← v.fatWriteDataCluster hit.cluster (hit.overwrite newEntry)
    some (true, v)

/-- Free the chain of a record that is removed. -/
def freeEntryChain (v : Volume) (deleteChain : Bool) (entry : DirEntry) : Option Volume :=
  if deleteChain then v.fatFreeChain entry.startCluster.toNat else some v

def fatRemoveDirEntry (v : Volume) (name : List UInt8) (currentDir : DirEntry) (deleteChain : Bool) :
    Option (Bool × Volume) := do
  match ← v.scanDir (nameMatches name) currentDir with
  | none => some (false, v)
  | some hit =>
    let v ← v.freeEntryChain deleteChain hit.entry
    let v ← v.fatWriteDataCluster hit.cluster (ByteMem.splice hit.buffer (32 * hit.slot) (List.replicate 32 0))
    some (true, v)

end Volume

end DBolOS.Fat
