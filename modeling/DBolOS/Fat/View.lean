import DBolOS.Lib.Chain
import DBolOS.Fat.Calls

/-!
# The volume as a table and its clusters

`View` is what the operations work on once the geometry is sound: the FAT in memory and the contents of the data
clusters.  Every primitive of the faithful model acts on the view as one store or one write, and the loops over
`fat_table` follow its chains.
-/

namespace DBolOS.Fat

open ByteMem Linked

/-- Geometries that the code handles: sectors as large as the driver's, no index of the FAT that looks like an end
marker, and at least one FAT, behind which the data area starts. -/
structure Fat16Fs.Sound (fs : Fat16Fs) : Prop where
  sector : fs.bytesPerSector = 512
  cluster : 1 ≤ fs.sectorsPerCluster
  fats : 1 ≤ fs.numFats
  entries : fs.totalFatEntries ≤ 0xFFF8

structure View where
  fs : Fat16Fs
  fat : List UInt16
  data : Nat → List UInt8

namespace View

/-! ### Chains -/

/-- The link of a cluster. -/
def next (s : View) (c : Nat) : Option Nat :=
  s.fat[c]?.bind fun x => if isEndOfClusterChain x || x == freeCluster then none else some x.toNat

def IsLast (s : View) (c : Nat) : Prop := ∃ x, s.fat[c]? = some x ∧ isEndOfClusterChain x = true

/-- The clusters from `start` on are `cs`. -/
abbrev Chain (s : View) (start : Nat) (cs : List Nat) : Prop := Linked.Chain s.next s.IsLast start cs

/-! ### Changes -/

def setFat (s : View) (i : Nat) (x : UInt16) : View := { s with fat := s.fat.set i x }

def write (s : View) (c : Nat) (bs : List UInt8) : View := { s with data := Function.update s.data c bs }

/-- A cluster of zeroes. -/
def zeroes (s : View) : List UInt8 := List.replicate s.fs.bytesPerCluster 0

/-- Make the cluster `n` a chain of its own, zeroed. -/
def claim (s : View) (n : Nat) : View := (s.setFat n clusterChainEnd).write n s.zeroes

/-- Hang the cluster `n`, zeroed, behind `last`. -/
def extend (s : View) (last n : Nat) : View := (s.setFat last (UInt16.ofNat n)).claim n

/-- Free the entries of a list of clusters. -/
def freeAll (s : View) (cs : List Nat) : View := cs.foldl (fun s c => s.setFat c freeCluster) s

@[simp] theorem setFat_fs (s : View) (i : Nat) (x : UInt16) : (s.setFat i x).fs = s.fs := rfl

@[simp] theorem setFat_fat (s : View) (i : Nat) (x : UInt16) : (s.setFat i x).fat = s.fat.set i x := rfl

@[simp] theorem setFat_data (s : View) (i : Nat) (x : UInt16) : (s.setFat i x).data = s.data := rfl

@[simp] theorem write_fs (s : View) (c : Nat) (bs : List UInt8) : (s.write c bs).fs = s.fs := rfl

@[simp] theorem write_fat (s : View) (c : Nat) (bs : List UInt8) : (s.write c bs).fat = s.fat := rfl

@[simp] theorem write_data (s : View) (c : Nat) (bs : List UInt8) :
    (s.write c bs).data = Function.update s.data c bs := rfl

theorem terminates (s : View) : Terminates s.next s.IsLast := by
  rintro c ⟨x, hx, hend⟩
  simp [next, hx, hend]

theorem next_of_getElem? {s : View} {c : Nat} {x : UInt16} (hx : s.fat[c]? = some x)
    (hend : isEndOfClusterChain x = false) (hfree : x ≠ freeCluster) : s.next c = some x.toNat := by
  simp [next, hx, hend, hfree]

theorem next_eq_some {s : View} {c d : Nat} (h : s.next c = some d) :
    ∃ x, s.fat[c]? = some x ∧ isEndOfClusterChain x = false ∧ x ≠ freeCluster ∧ x.toNat = d := by
  simp only [next, Option.bind_eq_some_iff] at h
  obtain ⟨x, hx, h⟩ := h
  split at h
  · cases h
  · rename_i hne
    simp only [Bool.or_eq_true, beq_iff_eq, not_or, Bool.not_eq_true] at hne
    exact ⟨x, hx, hne.1, hne.2, Option.some.inj h⟩

/-- The clusters of a chain lie in the table and are not free. -/
theorem Chain.getElem? {s : View} {start c : Nat} {cs : List Nat} (h : s.Chain start cs) (hc : c ∈ cs) :
    ∃ x, s.fat[c]? = some x ∧ x ≠ freeCluster := by
  rcases h.next_isSome hc with hnext | ⟨x, hx, hend⟩
  · obtain ⟨d, hd⟩ := Option.ne_none_iff_exists'.1 hnext
    obtain ⟨x, hx, _, hfree, _⟩ := next_eq_some hd
    exact ⟨x, hx, hfree⟩
  · refine ⟨x, hx, ?_⟩
    rintro rfl
    cases hend

theorem Chain.lt_length {s : View} {start c : Nat} {cs : List Nat} (h : s.Chain start cs) (hc : c ∈ cs) :
    c < s.fat.length := by
  obtain ⟨x, hx, _⟩ := Chain.getElem? h hc
  exact (List.getElem?_eq_some_iff.1 hx).1

theorem Chain.not_mem_of_free {s : View} {start f : Nat} {cs : List Nat} (h : s.Chain start cs)
    (hf : s.fat[f]? = some freeCluster) : f ∉ cs := by
  intro hmem
  obtain ⟨x, hx, hfree⟩ := Chain.getElem? h hmem
  rw [hf] at hx
  exact hfree (Option.some.inj hx).symm

/-- A chain is no longer than the table. -/
theorem Chain.length_le {s : View} {start : Nat} {cs : List Nat} (h : s.Chain start cs) :
    cs.length ≤ s.fat.length := by
  have hnodup := Linked.Chain.nodup s.terminates h
  have hsub : cs ⊆ List.range s.fat.length := fun c hc => List.mem_range.2 (Chain.lt_length h hc)
  simpa using (hnodup.subperm hsub).length_le

/-- A chain depends on the entries of its own clusters only. -/
theorem Chain.congr {s s' : View} {start : Nat} {cs : List Nat} (h : s.Chain start cs)
    (hkeep : ∀ c ∈ cs, s'.fat[c]? = s.fat[c]?) : s'.Chain start cs := by
  refine Linked.Chain.congr h (fun c hc => ?_) (fun c hc => ?_)
  · rw [next, next, hkeep c hc]
  · rintro ⟨x, hx, hend⟩
    exact ⟨x, (hkeep c hc).trans hx, hend⟩

theorem Chain.claim {s : View} {start f : Nat} {cs : List Nat} (h : s.Chain start cs)
    (hf : s.fat[f]? = some freeCluster) : (s.claim f).Chain start cs := by
  refine Chain.congr h fun c hc => List.getElem?_set_ne ?_
  rintro rfl
  exact Chain.not_mem_of_free h hf hc

theorem getElem?_setFat {s : View} {i j : Nat} {x : UInt16} :
    (s.setFat i x).fat[j]? = if i = j ∧ j < s.fat.length then some x else s.fat[j]? := by
  rw [setFat_fat, List.getElem?_set]
  by_cases hij : i = j
  · subst hij
    by_cases hi : i < s.fat.length
    · simp [hi]
    · simp [hi]
  · simp [hij]

theorem freeAll_fs (s : View) (cs : List Nat) : (s.freeAll cs).fs = s.fs := by
  induction cs generalizing s with
  | nil => rfl
  | cons c cs ih => exact ih _

theorem freeAll_data (s : View) (cs : List Nat) : (s.freeAll cs).data = s.data := by
  induction cs generalizing s with
  | nil => rfl
  | cons c cs ih => exact ih _

theorem length_freeAll (s : View) (cs : List Nat) : (s.freeAll cs).fat.length = s.fat.length := by
  induction cs generalizing s with
  | nil => rfl
  | cons c cs ih => exact (ih _).trans (by simp)

theorem getElem?_freeAll (s : View) (cs : List Nat) (i : Nat) :
    (s.freeAll cs).fat[i]? = if i ∈ cs ∧ i < s.fat.length then some freeCluster else s.fat[i]? := by
  induction cs generalizing s with
  | nil => simp [freeAll]
  | cons c cs ih =>
    rw [freeAll, List.foldl_cons]
    refine (ih _).trans ?_
    rw [getElem?_setFat, setFat_fat, List.length_set]
    by_cases hc : c = i
    · subst hc
      by_cases hi : c < s.fat.length <;> simp [hi]
    · by_cases hi : i ∈ cs <;> simp [hi, hc, Ne.symm hc]

end View

end DBolOS.Fat
