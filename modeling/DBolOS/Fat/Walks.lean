import DBolOS.Fat.Files

/-!
# Walks on any table

The loops of `fat.c` that follow the links of `fat_table`, on a table of any contents.  They all end inside the table
exactly when the links lead from the start to an end marker or a free entry (`walksEnd_iff`); a cycle keeps most of them
from ending, and a link past the table leads all but one of them out of it.
-/

namespace DBolOS.Fat

open Linked ByteMem

namespace Volume

variable {v w : Volume} {start n : Nat} {cs : List Nat}

/-- The entry ends a walk. -/
def Stops (v : Volume) (c : Nat) : Prop :=
  ∃ x, v.fatTable[c]? = some x ∧ (isEndOfClusterChain x = true ∨ x = freeCluster)

/-- The 512 bytes that are written back for an entry lie in the table. -/
def SectorFits (v : Volume) (i : Nat) : Prop :=
  i * 2 / v.fs.bytesPerSector * v.fs.bytesPerSector / 2 + 256 ≤ v.fatTable.length

/-- The loops over `fat_table` end after some number of rounds and read no entry outside of it. -/
structure WalksEnd (v : Volume) (start : Nat) : Prop where
  updateChain : ∃ n last, v.lastOfChain n start = some last ∧ ∀ i, last = some i → v.SectorFits i
  clusterAmount : ∃ n, v.clusterAmountFrom n start ≠ none
  freeChain : ∃ n, freeChainLoop n v start ≠ none
  scan : ∃ n, v.getIthCluster start n = some none ∧ ∀ i < n, v.getIthCluster start i ≠ none

private theorem stops_terminates (v : Volume) : Terminates v.view.next v.Stops := by
  rintro c ⟨x, hx, hend | rfl⟩
  · simp [View.next, hx, hend]
  · simp [View.next, hx]

/-- What a walk says about the entry of its first cluster. -/
private theorem walk_cases (h : Chain v.view.next v.Stops start cs) :
    (cs = [start] ∧ ∃ x, v.fatTable[start]? = some x ∧ (isEndOfClusterChain x = true ∨ x = freeCluster)) ∨
      ∃ x t, cs = start :: t ∧ v.fatTable[start]? = some x ∧ isEndOfClusterChain x = false ∧ x ≠ freeCluster ∧
        Chain v.view.next v.Stops x.toNat t := by
  cases h with
  | last h => exact .inl ⟨rfl, h⟩
  | cons hnext h =>
    obtain ⟨x, hx, hend, hfree, rfl⟩ := View.next_eq_some hnext
    exact .inr ⟨x, _, rfl, hx, hend, hfree, h⟩

private theorem writeFatSector_ne_none_iff {i : Nat} : v.writeFatSector i ≠ none ↔ v.SectorFits i := by
  have hlen : ((v.fatTable.drop (i * 2 / v.fs.bytesPerSector * v.fs.bytesPerSector / 2)).flatMap ByteMem.le16).length =
      2 * (v.fatTable.length - i * 2 / v.fs.bytesPerSector * v.fs.bytesPerSector / 2) := by
    rw [length_flatMap_le16, List.length_drop]
  rw [writeFatSector, ataWrite, hlen, SectorFits]
  split
  · simp only [Option.bind_eq_bind, Option.bind_some, ne_eq, reduceCtorEq, not_false_eq_true, true_iff]
    omega
  · simp only [Option.bind_eq_bind, Option.bind_none, ne_eq, not_true_eq_false, false_iff]
    omega

/-! ### A walk that ends -/

private theorem getIthCluster_walk (h : Chain v.view.next v.Stops start cs) {i : Nat} (hi : i ≤ cs.length) :
    v.getIthCluster start i = some cs[i]? := by
  induction i generalizing start cs with
  | zero =>
    obtain ⟨t, rfl⟩ := h.exists_cons
    rfl
  | succ i ih =>
    rcases walk_cases h with ⟨rfl, x, hx, hstop⟩ | ⟨x, t, rfl, hx, hend, hfree, ht⟩
    · simp [getIthCluster, hx, hstop]
    · simp [getIthCluster, hx, hend, hfree, ih ht (by simpa using hi)]

/-- The loop of `fat_update_chain` may stop early, at a link past all FATs. -/
private theorem lastOfChain_walk (h : Chain v.view.next v.Stops start cs) :
    ∃ last, v.lastOfChain cs.length start = some last ∧ ∀ i, last = some i → i ∈ cs := by
  induction h with
  | @last a hstop =>
    obtain ⟨x, hx, hstop⟩ := hstop
    exact ⟨some a, by simp [lastOfChain, hx, hstop], by simp⟩
  | @cons a b l hnext _ ih =>
    obtain ⟨x, hx, hend, hfree, rfl⟩ := View.next_eq_some hnext
    obtain ⟨last, hlast, hmem⟩ := ih
    rw [view_fat] at hx
    simp only [List.length_cons, lastOfChain, hx, Option.bind_eq_bind, Option.bind_some, hend, Bool.false_or, beq_iff_eq,
      hfree, ↓reduceIte]
    split
    · exact ⟨none, rfl, by simp⟩
    · exact ⟨last, hlast, fun i hi => List.mem_cons_of_mem _ (hmem i hi)⟩

private theorem clusterAmountFrom_walk (h : Chain v.view.next v.Stops start cs) :
    v.clusterAmountFrom cs.length start ≠ none := by
  induction h with
  | last hstop =>
    obtain ⟨x, hx, hstop⟩ := hstop
    rcases hstop with hend | rfl
    · simp [clusterAmountFrom, hx, hend]
    · simp [clusterAmountFrom, hx, show isEndOfClusterChain freeCluster = false by decide]
  | cons hnext _ ih =>
    obtain ⟨x, hx, hend, hfree, rfl⟩ := View.next_eq_some hnext
    rw [view_fat] at hx
    simpa [clusterAmountFrom, hx, hend, hfree] using ih

/-- Freeing an entry that was written back leaves the rest of a walk. -/
private theorem walk_of_freed {a x : Nat} (h : Chain v.view.next v.Stops x cs) (ha : a ∉ cs)
    (htable : w.fatTable = v.fatTable.set a freeCluster) : Chain w.view.next w.Stops x cs := by
  have hkeep : ∀ c ∈ cs, w.fatTable[c]? = v.fatTable[c]? := by
    intro c hc
    rw [htable, List.getElem?_set_ne]
    rintro rfl
    exact ha hc
  refine h.congr (fun c hc => ?_) (fun c hc => ?_)
  · rw [View.next, View.next, view_fat, view_fat, hkeep c hc]
  · rintro ⟨x, hx, hstop⟩
    exact ⟨x, (hkeep c hc).trans hx, hstop⟩

/-- Freeing the entries of a walk ends exactly when all of them can be written back. -/
private theorem freeChainLoop_walk (h : Chain v.view.next v.Stops start cs) :
    (∃ n, freeChainLoop n v start ≠ none) ↔ ∀ c ∈ cs, v.SectorFits c := by
  induction cs generalizing v start with
  | nil => exact absurd rfl h.ne_nil
  | cons c t ih =>
    have hstart : c = start := by
      obtain ⟨t', heq⟩ := h.exists_cons
      exact (List.cons.inj heq).1
    subst hstart
    have hlt : c < v.fatTable.length := by
      rcases walk_cases h with ⟨_, x, hx, _⟩ | ⟨x, _, _, hx, _⟩
      · exact (List.getElem?_eq_some_iff.1 hx).1
      · exact (List.getElem?_eq_some_iff.1 hx).1
    obtain ⟨u, hu⟩ : ∃ u, v.storeFat c freeCluster = some u := ⟨_, if_pos hlt⟩
    obtain ⟨-, hfs, htable, -⟩ := storeFat_eq_some hu
    have hfits : ∀ w : Volume, w.fs = u.fs → w.fatTable = u.fatTable → ∀ i, w.SectorFits i ↔ v.SectorFits i := by
      intro w hwfs hwtable i
      rw [SectorFits, SectorFits, hwfs, hfs, hwtable, htable, List.length_set]
    cases hw : u.writeFatSector c with
    | none =>
      -- the sector of the entry is not written
      have hno : ¬v.SectorFits c := fun hfit => writeFatSector_ne_none_iff.2 ((hfits u rfl rfl c).2 hfit) hw
      refine iff_of_false ?_ fun hall => hno (hall c (by simp))
      rintro ⟨n, hn⟩
      cases n with
      | zero => exact hn rfl
      | succ n =>
        have hx := List.getElem?_eq_getElem hlt
        exact hn (by simp [freeChainLoop, hx, hu, hw])
    | some w =>
      obtain ⟨hwfs, hwtable, -⟩ := writeFatSector_eq_some hw
      have hfit : v.SectorFits c := (hfits u rfl rfl c).1 (writeFatSector_ne_none_iff.1 (by rw [hw]; simp))
      rcases walk_cases h with ⟨hone, x, hx, hstop⟩ | ⟨x, t', heq, hx, hend, hfree, ht⟩
      · obtain rfl : t = [] := (List.cons.inj hone).2
        refine iff_of_true ⟨1, by simp [freeChainLoop, hx, hu, hw, hstop]⟩ ?_
        intro i hi
        rwa [List.mem_singleton.1 hi]
      · obtain rfl : t = t' := (List.cons.inj heq).2
        have hnot : c ∉ t := (List.nodup_cons.1 (h.nodup v.stops_terminates)).1
        have ht' := walk_of_freed ht hnot (hwtable.trans htable)
        have hrun : (∃ n, freeChainLoop n v c ≠ none) ↔ ∃ n, freeChainLoop n w x.toNat ≠ none := by
          constructor
          · rintro ⟨n, hn⟩
            cases n with
            | zero => exact absurd rfl hn
            | succ n => exact ⟨n, by simpa [freeChainLoop, hx, hu, hw, hend, hfree] using hn⟩
          · rintro ⟨n, hn⟩
            exact ⟨n + 1, by simpa [freeChainLoop, hx, hu, hw, hend, hfree] using hn⟩
        rw [hrun, ih ht']
        simp only [List.mem_cons, forall_eq_or_imp, hfit, true_and, hfits w hwfs hwtable]

/-! ### A walk that does not end -/

private theorem walk_of_clusterAmountFrom (h : v.clusterAmountFrom n start ≠ none) :
    ∃ cs, Chain v.view.next v.Stops start cs := by
  induction n generalizing start with
  | zero => exact absurd rfl h
  | succ n ih =>
    cases hx : v.fatTable[start]? with
    | none => simp [clusterAmountFrom, hx] at h
    | some x =>
      by_cases hstop : isEndOfClusterChain x = true ∨ x = freeCluster
      · exact ⟨[start], .last ⟨x, hx, hstop⟩⟩
      · rw [not_or, Bool.not_eq_true] at hstop
        obtain ⟨hend, hfree⟩ := hstop
        obtain ⟨cs, hcs⟩ := @ih x.toNat fun hnone => h (by simp [clusterAmountFrom, hx, hend, hfree, hnone])
        exact ⟨start :: cs, .cons (View.next_of_getElem? hx hend hfree) hcs⟩

end Volume

/-- With sectors of 512 bytes or more every sector written back lies in the table. -/
private theorem sectorFits_of_sector {v : Volume} {i : Nat} (hsector : 512 ≤ v.fs.bytesPerSector)
    (hi : i < v.fatTable.length) :
    v.SectorFits i := by
  rw [v.fatTable_length, Fat16Fs.totalFatEntries] at hi
  rw [Volume.SectorFits, v.fatTable_length, Fat16Fs.totalFatEntries]
  obtain ⟨k, hk⟩ : ∃ k, k = i * 2 / v.fs.bytesPerSector := ⟨_, rfl⟩
  rw [← hk]
  have hle : k * v.fs.bytesPerSector ≤ i * 2 := hk ▸ Nat.div_mul_le_self _ _
  have hlt : k < v.fs.sectorsPerFat := Nat.lt_of_mul_lt_mul_right (by omega : k * v.fs.bytesPerSector < _)
  have hnext := Nat.mul_le_mul_right v.fs.bytesPerSector (Nat.succ_le_of_lt hlt)
  rw [Nat.succ_mul] at hnext
  omega

/-- The walks from an entry all end inside the table exactly when the links from it lead to an end marker or a free entry
of the table, past entries whose sectors lie in the table.  Sectors of 512 bytes or more always do. -/
theorem walksEnd_iff (v : Volume) (start : Nat) :
    (v.WalksEnd start ↔ ∃ cs, Chain v.view.next v.Stops start cs ∧ ∀ c ∈ cs, v.SectorFits c) ∧
      (512 ≤ v.fs.bytesPerSector → ∀ i < v.fatTable.length, v.SectorFits i) := by
  refine ⟨⟨?_, ?_⟩, fun hsector i hi => sectorFits_of_sector hsector hi⟩
  · intro h
    obtain ⟨n, hn⟩ := h.clusterAmount
    obtain ⟨cs, hcs⟩ := Volume.walk_of_clusterAmountFrom hn
    exact ⟨cs, hcs, (Volume.freeChainLoop_walk hcs).1 h.freeChain⟩
  · rintro ⟨cs, hcs, hfits⟩
    obtain ⟨last, hlast, hmem⟩ := Volume.lastOfChain_walk hcs
    refine ⟨⟨_, last, hlast, fun i hi => hfits i (hmem i hi)⟩, ⟨_, Volume.clusterAmountFrom_walk hcs⟩,
      (Volume.freeChainLoop_walk hcs).2 hfits, cs.length, ?_, ?_⟩
    · rw [Volume.getIthCluster_walk hcs (le_refl _)]
      simp
    · intro i hi
      rw [Volume.getIthCluster_walk hcs hi.le]
      simp

/-- A table whose entry 2 links to itself. -/
def selfLinkedDisk : ByteMem := image [0xFFF8, 0xFFFF, 2] fun _ => []

/-- On it the loop that counts the clusters from entry 2 never ends, and neither does that of `fat_update_chain`. -/
theorem not_walksEnd : ∃ v, fatInit (some fun _ => 0) selfLinkedDisk = some (some v) ∧ 2 < v.fatTable.length ∧
    (∀ n, v.clusterAmountFrom n 2 = none) ∧ (∀ n, v.lastOfChain n 2 = none) ∧ ¬v.WalksEnd 2 := by
  have hmount : ((fatInit (some fun _ => 0) selfLinkedDisk).bind fun mounted => mounted.map fun v =>
      (v.fatTable[2]?, v.fatTable.length, v.fs.numFats, v.fs.sectorsPerFat, v.fs.bytesPerSector)) =
        some (some 2, 256, 1, 1, 512) := by
    decide +kernel
  simp only [Option.bind_eq_some_iff, Option.map_eq_some_iff, Prod.mk.injEq] at hmount
  obtain ⟨_, hinit, v, rfl, hlink, hlength, hfats, hspf, hsector⟩ := hmount
  have hend : isEndOfClusterChain 2 = false := by decide
  have hamount : ∀ n, v.clusterAmountFrom n 2 = none := by
    intro n
    induction n with
    | zero => rfl
    | succ n ih =>
      have hnat : (2 : UInt16).toNat = 2 := rfl
      simp [Volume.clusterAmountFrom, hlink, hend, hnat, ih, freeCluster]
  have hlast : ∀ n, v.lastOfChain n 2 = none := by
    intro n
    induction n with
    | zero => rfl
    | succ n ih =>
      have hnat : (2 : UInt16).toNat = 2 := rfl
      simp [Volume.lastOfChain, hlink, hend, hnat, ih, freeCluster, hfats, hspf, hsector]
  refine ⟨v, hinit, by rw [hlength]; decide, hamount, hlast, ?_⟩
  intro h
  obtain ⟨n, hn⟩ := h.clusterAmount
  exact hn (hamount n)

/-- `walksEnd_iff` on the chain of two clusters. -/
theorem walksEnd_twoClusterDisk : ∃ v, fatInit (some fun _ => 0) twoClusterDisk = some (some v) ∧ v.WalksEnd 2 := by
  have hmount : ((fatInit (some fun _ => 0) twoClusterDisk).bind fun mounted => mounted.map fun v =>
      (v.fatTable[2]?, v.fatTable[3]?, v.fatTable.length, v.fs.bytesPerSector)) = some (some 3, some 0xFFF8, 256, 512) := by
    decide +kernel
  simp only [Option.bind_eq_some_iff, Option.map_eq_some_iff, Prod.mk.injEq] at hmount
  obtain ⟨_, hinit, v, rfl, hlink, hlast, hlength, hsector⟩ := hmount
  have hwalk : Chain v.view.next v.Stops 2 [2, 3] :=
    .cons (View.next_of_getElem? hlink (by decide) (by decide)) (.last ⟨_, hlast, .inl (by decide)⟩)
  refine ⟨v, hinit, (walksEnd_iff v 2).1.2 ⟨_, hwalk, ?_⟩⟩
  intro c hc
  refine (walksEnd_iff v 2).2 hsector.ge c ?_
  rw [hlength]
  rcases List.mem_pair.1 hc with rfl | rfl <;> decide

end DBolOS.Fat
