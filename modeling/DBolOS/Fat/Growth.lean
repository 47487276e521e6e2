import DBolOS.Fat.Sectors
import DBolOS.Fat.Shortage

/-!
# Appending clusters to a chain and releasing a chain

`fat_allocate_space` takes the free clusters from the lowest index on and hangs each of them behind the chain, in two
stores: the link, and the end marker of the new cluster.  `fat_free_chain` destroys the links while it follows them.
Both write the sectors of the entries they change.
-/

namespace DBolOS.Fat

open ByteMem Linked Volume

/-! ### The free entries in increasing order -/

namespace View

/-- The indices of the free entries, in increasing order. -/
def freeList (s : View) : List Nat := (List.range s.fat.length).filter fun i => s.fat[i]? == some freeCluster

variable {s : View}

private theorem mem_freeList {i : Nat} : i ∈ s.freeList ↔ s.fat[i]? = some freeCluster := by
  rw [freeList, List.mem_filter, List.mem_range, beq_iff_eq]
  constructor
  · intro h
    exact h.2
  · intro h
    exact ⟨(List.getElem?_eq_some_iff.1 h).1, h⟩

/-- The list is sorted, so its first indices are the lowest ones. -/
private theorem pairwise_freeList (s : View) : s.freeList.Pairwise (· < ·) := List.pairwise_lt_range.filter _

private theorem nodup_freeList (s : View) : s.freeList.Nodup := List.nodup_range.filter _

private theorem length_filter_range (l : List UInt16) (x : UInt16) :
    ((List.range l.length).filter fun i => l[i]? == some x).length = l.count x := by
  induction l using List.reverseRecOn with
  | nil => rfl
  | append_singleton l a ih =>
    have hinit : (List.range l.length).filter (fun i => (l ++ [a])[i]? == some x) =
        (List.range l.length).filter fun i => l[i]? == some x := by
      apply List.filter_congr
      intro i hi
      rw [List.getElem?_append_left (List.mem_range.1 hi)]
    rw [List.length_append, List.length_singleton, List.range_succ, List.filter_append, List.length_append, hinit, ih,
      List.count_append, List.count_singleton]
    by_cases hax : a = x
    · simp [hax]
    · simp [hax]

private theorem length_freeList (s : View) : s.freeList.length = s.freeCount := length_filter_range s.fat freeCluster

/-- Hanging the first free cluster behind a cluster in use leaves the other free ones. -/
private theorem freeList_extend {last f : Nat} {rest : List Nat} (hlast : last < s.fat.length)
    (hused : s.fat[last]? ≠ some freeCluster) (hpos : 0 < f) (hlen : f < 0xFFF8) (hfree : s.freeList = f :: rest) :
    (s.extend last f).freeList = rest := by
  have hf : s.fat[f]? = some freeCluster := mem_freeList.1 (hfree ▸ List.mem_cons_self)
  have hne : last ≠ f := by
    intro heq
    rw [heq] at hused
    exact hused hf
  obtain ⟨hend, hlink, hkeep⟩ := getElem?_extend hne hlast (List.getElem?_eq_some_iff.1 hf).1
  have hlength : (s.extend last f).fat.length = s.fat.length := by
    show ((s.fat.set last _).set f _).length = _
    rw [List.length_set, List.length_set]
  have hfilter : (s.extend last f).freeList = s.freeList.filter (· ≠ f) := by
    rw [freeList, freeList, hlength, List.filter_filter]
    apply List.filter_congr
    intro i _
    by_cases hif : i = f
    · subst hif
      rw [hend]
      simp [clusterChainEnd, freeCluster]
    · by_cases hil : i = last
      · subst hil
        have hlinked : (some (UInt16.ofNat f) == some freeCluster) = false := by
          rw [beq_eq_false_iff_ne]
          exact fun heq => ofNat_ne_free hpos hlen (Option.some.inj heq)
        rw [hlink, hlinked, beq_eq_false_iff_ne.2 hused, Bool.and_false]
      · rw [hkeep i hil hif]
        simp [hif]
  have hnodup := s.nodup_freeList
  rw [hfree, List.nodup_cons] at hnodup
  rw [hfilter, hfree, List.filter_cons_of_neg (by simp), List.filter_eq_self]
  intro i hi
  rw [decide_eq_true_eq]
  intro hif
  exact hnodup.1 (hif ▸ hi)

end View

namespace Volume

variable {v w u : Volume} {start : Nat} {cs ds : List Nat}

/-- `fat_find_free` returns the lowest free index. -/
private theorem fatFindFree_eq_head (v : Volume) : v.fatFindFree = v.view.freeList.head? := by
  cases hfind : v.fatFindFree with
  | none =>
    have hcount := fatFindFree_eq_none_iff.1 hfind
    rw [← View.length_freeList, List.length_eq_zero_iff] at hcount
    rw [hcount]
    rfl
  | some f =>
    obtain ⟨hf, hlt⟩ := fatFindFree_eq_some hfind
    obtain ⟨_, _, hbefore⟩ := List.findIdx?_eq_some_iff_getElem.1 hfind
    rw [View.freeList, List.head?_filter, eq_comm, List.find?_range_eq_some]
    refine ⟨by simp [hf], List.mem_range.2 hlt, ?_⟩
    intro j hj
    have hjfree := hbefore j hj
    have hjlt : j < v.fatTable.length := by omega
    rw [view_fat, List.getElem?_eq_getElem hjlt]
    simpa using hjfree

/-! ### Appending -/

/-- The entries that appending `ds` to the chain `cs` changes. -/
def changedEntries (cs : List Nat) : List Nat → List Nat
  | [] => []
  | d :: ds => cs.getLast?.toList ++ d :: ds

/-- The clusters `ds` were appended to the chain `cs` from `start`. -/
structure Appended (v w : Volume) (start : Nat) (cs ds : List Nat) : Prop where
  chain : w.view.Chain start (cs ++ ds)
  rewrites : Rewrites v w (changedEntries cs ds)
  zeroed : ∀ c ∈ ds, w.data c = List.replicate v.fs.bytesPerCluster 0
  kept : ∀ c < v.fatTable.length, c ∉ ds → w.data c = v.data c

private theorem Appended.refl (h : v.view.Chain start cs) : Appended v v start cs [] where
  chain := by
    rw [List.append_nil]
    exact h
  rewrites := Rewrites.refl v
  zeroed := by
    intro c hc
    cases hc
  kept := fun _ _ _ => rfl

private theorem Appended.cons {f : Nat} (h : Appended v u start cs [f]) (h' : Appended u w start (cs ++ [f]) ds)
    (hf : f < v.fatTable.length) (hfresh : f ∉ ds) : Appended v w start cs (f :: ds) where
  chain := by
    have := h'.chain
    rwa [List.append_assoc, List.singleton_append] at this
  rewrites := by
    refine (h.rewrites.trans h'.rewrites).congr ?_
    intro i
    cases ds with
    | nil => simp [changedEntries]
    | cons d ds => simp [changedEntries]
  zeroed := by
    have hfs := h.rewrites.fs
    intro c hc
    rcases List.mem_cons.1 hc with hcf | hc
    · have hlen : f < u.fatTable.length := by rwa [u.fatTable_length, hfs, ← v.fatTable_length]
      rw [hcf, h'.kept f hlen hfresh, h.zeroed f (List.mem_singleton_self f)]
    · rw [h'.zeroed c hc, hfs]
  kept := by
    have hfs := h.rewrites.fs
    intro c hlt hc
    rw [List.mem_cons, not_or] at hc
    have hlen : c < u.fatTable.length := by rwa [u.fatTable_length, hfs, ← v.fatTable_length]
    rw [h'.kept c hlen hc.2, h.kept c hlt (by simpa using hc.1)]

/-- Hanging a cluster behind another one writes the sectors of both. -/
theorem rewrites_fatUpdateChain {last f : Nat} (hs : v.fs.Sound)
    (hlast : v.lastOfChain v.walkFuel start = some (some last)) (hl : last < v.fatTable.length)
    (hf : f < v.fatTable.length) : ∃ u, v.fatUpdateChain start f = some u ∧ Rewrites v u [last, f] := by
  obtain ⟨u1, w1, hu1, hw1, htable1, hrw1⟩ := rewrites_store (UInt16.ofNat f) hs.sector hl
  have hf1 : f < w1.fatTable.length := by rwa [htable1, List.length_set]
  obtain ⟨u2, w2, hu2, hw2, htable2, hrw2⟩ := rewrites_store clusterChainEnd (hrw1.fs ▸ hs.sector) hf1
  have hf2 : f < w2.fatTable.length := by rwa [htable2, List.length_set]
  have hs2 : w2.fs.Sound := by rwa [hrw2.fs, hrw1.fs]
  obtain ⟨w3, hw3, _⟩ := fatWriteDataCluster_spec hs2 hf2 (length_zeroBuffer hs2)
  refine ⟨w3, ?_, (hrw1.trans hrw2).trans (rewrites_fatWriteDataCluster hs2 hf2 hw3)⟩
  simp [fatUpdateChain, hlast, hu1, hw1, hu2, hw2, hw3]

/-- One call of `fat_update_chain` with a free cluster. -/
private theorem fatUpdateChain_appended {f : Nat} (hs : v.fs.Sound) (h : v.view.Chain start cs)
    (hfree : v.fatTable[f]? = some freeCluster) (hpos : 0 < f) :
    ∃ u last, v.fatUpdateChain start f = some u ∧ cs.getLast? = some last ∧ u.view = v.view.extend last f ∧
      Appended v u start cs [f] := by
  obtain ⟨last, hlast⟩ := Option.ne_none_iff_exists'.1 fun h0 => h.ne_nil (List.getLast?_eq_none_iff.1 h0)
  have hmem := List.mem_of_getLast? hlast
  have hl : last < v.fatTable.length := View.Chain.lt_length h hmem
  have hf : f < v.fatTable.length := (List.getElem?_eq_some_iff.1 hfree).1
  have hlen : f < 0xFFF8 := by
    rw [v.fatTable_length] at hf
    exact hf.trans_le hs.entries
  obtain ⟨u, hu, hview⟩ := fatUpdateChain_spec hs h hlast hf
  refine ⟨u, last, hu, hlast, hview, ?_, ?_, ?_, ?_⟩
  · rw [hview]
    exact View.Chain.extend h hlast hfree hpos hlen
  · have hlast' := lastOfChain_spec hs h (length_le_walkFuel h)
    rw [hlast] at hlast'
    obtain ⟨u', hu', hrw⟩ := rewrites_fatUpdateChain hs hlast' hl hf
    rw [hu] at hu'
    cases hu'
    rw [changedEntries, hlast]
    exact hrw
  · intro c hc
    rw [List.mem_singleton] at hc
    have hdata := congrFun (congrArg View.data hview) c
    have hfs : u.fs = v.fs := congrArg View.fs hview
    rw [view_data (by rwa [hc, u.fatTable_length, hfs, ← v.fatTable_length])] at hdata
    rw [hdata, hc]
    exact Function.update_self ..
  · intro c hlt hc
    rw [List.mem_singleton] at hc
    have hdata := congrFun (congrArg View.data hview) c
    have hfs : u.fs = v.fs := congrArg View.fs hview
    rw [view_data (by rwa [u.fatTable_length, hfs, ← v.fatTable_length])] at hdata
    rw [hdata, ← view_data hlt]
    exact Function.update_of_ne hc _ _

/-- `fat_allocate_space` appends the lowest free clusters to the chain of the entry: as many as asked for, or all of them
when they run out. -/
private theorem fatAllocateSpace_appended (amount : Nat) {e : DirEntry} (hs : v.fs.Sound) (hzero : 0 ∉ v.view.freeList)
    (h : v.view.Chain e.startCluster.toNat cs) :
    ∃ w, fatAllocateSpace amount v e = some (decide (amount ≤ v.view.freeCount), w) ∧
      w.view.freeList = v.view.freeList.drop amount ∧
      Appended v w e.startCluster.toNat cs (v.view.freeList.take amount) := by
  induction amount generalizing v cs with
  | zero => exact ⟨v, by simp [fatAllocateSpace], rfl, Appended.refl h⟩
  | succ amount ih =>
    rw [← View.length_freeList]
    cases hfree : v.view.freeList with
    | nil =>
      refine ⟨v, ?_, hfree, Appended.refl h⟩
      simp [fatAllocateSpace, fatFindFree_eq_head, hfree]
    | cons f rest =>
      have hf : v.fatTable[f]? = some freeCluster := View.mem_freeList.1 (hfree ▸ List.mem_cons_self)
      have hlen : f < v.fatTable.length := (List.getElem?_eq_some_iff.1 hf).1
      have hpos : 0 < f := by
        apply Nat.pos_of_ne_zero
        intro hf0
        exact hzero (hfree ▸ hf0 ▸ List.mem_cons_self)
      obtain ⟨u, last, hu, hlast, hview, happ⟩ := fatUpdateChain_appended hs h hf hpos
      have hfs := happ.rewrites.fs
      have hrest : u.view.freeList = rest := by
        obtain ⟨x, hx, hxfree⟩ := View.Chain.getElem? h (List.mem_of_getLast? hlast)
        rw [hview]
        refine View.freeList_extend (List.getElem?_eq_some_iff.1 hx).1 ?_ hpos ?_ hfree
        · rw [hx]
          exact fun heq => hxfree (Option.some.inj heq)
        · rw [v.fatTable_length] at hlen
          exact hlen.trans_le hs.entries
      rw [hfree, List.mem_cons, not_or] at hzero
      obtain ⟨w, hw, hleft, happ'⟩ := ih (hfs ▸ hs) (hrest ▸ hzero.2) happ.chain
      rw [hrest] at hleft happ'
      refine ⟨w, ?_, hleft, happ.cons happ' hlen ?_⟩
      · simp only [fatAllocateSpace, fatFindFree_eq_head, hfree, List.head?_cons, hu, Option.bind_eq_bind,
          Option.bind_some, hw, ← View.length_freeList, hrest, List.length_cons, Nat.add_le_add_iff_right]
      · have hnodup := v.view.nodup_freeList
        rw [hfree, List.nodup_cons] at hnodup
        exact fun hmem => hnodup.1 (List.mem_of_mem_take hmem)

/-- `fat_allocate_space` on a well-formed chain, in a table whose reserved first entry is in use: it returns `true`
when there are enough free entries, and has then appended the lowest of them in increasing order.  A sound geometry
has at most `0xFFF8` entries. -/
theorem fatAllocateSpace_grows (k : Nat) {e : DirEntry} (hs : v.fs.Sound) (hzero : v.fatTable[0]? ≠ some freeCluster)
    (h : v.view.Chain e.startCluster.toNat cs) :
    ∃ b w, fatAllocateSpace k v e = some (b, w) ∧ (b = false ↔ v.view.freeCount < k) ∧
      (b = true → ∃ ds, ds.length = k ∧ ds.Pairwise (· < ·) ∧ (∀ d ∈ ds, v.fatTable[d]? = some freeCluster) ∧
        (∀ i, v.fatTable[i]? = some freeCluster → i ∉ ds → ∀ d ∈ ds, d < i) ∧
        Appended v w e.startCluster.toNat cs ds) := by
  obtain ⟨w, hw, _, happ⟩ := fatAllocateSpace_appended k hs (fun hmem => hzero (View.mem_freeList.1 hmem)) h
  refine ⟨_, w, hw, by simp, ?_⟩
  intro hb
  rw [decide_eq_true_eq, ← View.length_freeList] at hb
  have hsorted := v.view.pairwise_freeList
  refine ⟨v.view.freeList.take k, ?_, hsorted.take, ?_, ?_, happ⟩
  · rw [List.length_take]
    omega
  · intro d hd
    exact View.mem_freeList.1 (List.mem_of_mem_take hd)
  · -- the free entries that are left stand behind the ones that were taken
    intro i hi hleft d hd
    have hmem : i ∈ v.view.freeList := View.mem_freeList.2 hi
    rw [← List.take_append_drop k v.view.freeList] at hmem hsorted
    rcases List.mem_append.1 hmem with htaken | hdrop
    · exact absurd htaken hleft
    · exact (List.pairwise_append.1 hsorted).2.2 d hd i hdrop

/-! ### Releasing -/

/-- The chain `cs` was released: its entries are free, in memory and in their sectors on disk. -/
structure Released (v w : Volume) (cs : List Nat) : Prop where
  entries : ∀ i, w.fatTable[i]? = if i ∈ cs then some freeCluster else v.fatTable[i]?
  rewrites : Rewrites v w cs
  synced : v.Synced → w.Synced

/-- The loop frees the part of the chain that is left. -/
private theorem freeChainLoop_released {n : Nat} (hsector : v.fs.bytesPerSector = 512) (h : v.view.Chain start cs)
    (hn : cs.length ≤ n) :
    ∃ w, freeChainLoop n v start = some w ∧ (∀ i, w.fatTable[i]? = if i ∈ cs then some freeCluster else v.fatTable[i]?) ∧
      Rewrites v w cs := by
  induction n generalizing v start cs with
  | zero => exact absurd h.length_pos (by omega)
  | succ n ih =>
    have hstart : start < v.fatTable.length := View.Chain.lt_length h h.mem_head
    obtain ⟨u, w, hu, hw, htable, hrw⟩ := rewrites_store freeCluster hsector hstart
    have hentry : ∀ i, w.fatTable[i]? = if i = start then some freeCluster else v.fatTable[i]? := by
      intro i
      rw [htable]
      by_cases hi : i = start
      · rw [if_pos hi, hi, List.getElem?_set_self hstart]
      · rw [if_neg hi, List.getElem?_set_ne (Ne.symm hi)]
    rcases chain_cases h with ⟨rfl, x, hx, hend⟩ | ⟨x, t, rfl, hx, hend, hfree, ht⟩
    · refine ⟨w, by simp [freeChainLoop, hx, hu, hw, hend], ?_, hrw⟩
      intro i
      rw [hentry i]
      simp only [List.mem_singleton]
    · have hnodup := List.nodup_cons.1 (Linked.Chain.nodup v.view.terminates h)
      have ht' : w.view.Chain x.toNat t := by
        apply View.Chain.congr ht
        intro c hc
        rw [view_fat, view_fat, hentry c, if_neg]
        intro hcs
        exact hnodup.1 (hcs ▸ hc)
      rw [List.length_cons] at hn
      obtain ⟨w', hw', hentry', hrw'⟩ := ih (hrw.fs ▸ hsector) ht' (by omega)
      refine ⟨w', by simp [freeChainLoop, hx, hu, hw, hend, hfree, hw'], ?_, hrw.trans hrw'⟩
      intro i
      rw [hentry' i, hentry i]
      by_cases hi : i ∈ t
      · simp [hi]
      · by_cases his : i = start
        · simp [his]
        · simp [hi, his]

theorem fatFreeChain_released (hsector : v.fs.bytesPerSector = 512) (h : v.view.Chain start cs) :
    ∃ w, v.fatFreeChain start = some w ∧ Released v w cs := by
  obtain ⟨w, hw, hentries, hrw⟩ := freeChainLoop_released hsector h (length_le_walkFuel h)
  exact ⟨w, hw, hentries, hrw, hrw.synced hsector⟩

/-- Extending the chain `cs` of an entry by `k` clusters and releasing the chain leaves free what was free before and the
clusters of `cs`. -/
def ReleasesExtended (v : Volume) (e : DirEntry) (cs : List Nat) (k : Nat) : Prop :=
  ∃ b u w, fatAllocateSpace k v e = some (b, u) ∧ u.fatFreeChain e.startCluster.toNat = some w ∧
    ∀ i, w.fatTable[i]? = some freeCluster ↔ v.fatTable[i]? = some freeCluster ∨ i ∈ cs

private theorem releasesExtended (k : Nat) {e : DirEntry} (hs : v.fs.Sound) (hzero : v.fatTable[0]? ≠ some freeCluster)
    (h : v.view.Chain e.startCluster.toNat cs) : ReleasesExtended v e cs k := by
  obtain ⟨u, hu, hleft, happ⟩ := fatAllocateSpace_appended k hs (fun hmem => hzero (View.mem_freeList.1 hmem)) h
  obtain ⟨w, hw, hrel⟩ := fatFreeChain_released (happ.rewrites.fs ▸ hs.sector) happ.chain
  refine ⟨_, u, w, hu, hw, ?_⟩
  intro i
  have hbefore : v.fatTable[i]? = some freeCluster ↔
      i ∈ v.view.freeList.take k ∨ u.fatTable[i]? = some freeCluster := by
    rw [← view_fat, ← View.mem_freeList, ← view_fat, ← View.mem_freeList, hleft, ← List.mem_append,
      List.take_append_drop]
  rw [hrel.entries i, hbefore]
  by_cases hi : i ∈ cs ++ v.view.freeList.take k
  · rw [if_pos hi]
    rw [List.mem_append] at hi
    tauto
  · rw [if_neg hi]
    rw [List.mem_append] at hi
    tauto

/-- `fat_free_chain` on a well-formed chain, alone and behind `fat_allocate_space`. -/
theorem fatFreeChain_releases (hsector : v.fs.bytesPerSector = 512) (h : v.view.Chain start cs) :
    (∃ w, v.fatFreeChain start = some w ∧ Released v w cs) ∧
      (v.fs.Sound → v.fatTable[0]? ≠ some freeCluster →
        ∀ (k : Nat) (e : DirEntry), e.startCluster.toNat = start → ReleasesExtended v e cs k) := by
  refine ⟨fatFreeChain_released hsector h, ?_⟩
  intro hs hzero k e he
  exact releasesExtended k hs hzero (he ▸ h)

/-! ### Tables with one free entry -/

private theorem entries_of_sectors (sectorsPerFat : Nat) : 256 * sectorsPerFat = sectorsPerFat * 512 / 2 := by omega

/-- A volume whose cluster 2 is a chain of its own and whose only free entry is `f`. -/
def oneFree (sectorsPerFat f : Nat) (h : sectorsPerFat < 2 ^ 16) : Volume where
  fs :=
    { bytesPerSector := 512
      sectorsPerCluster := 1
      reservedSectors := 1
      numFats := 1
      rootDirEntries := 512
      totalSectors := 0xFFFF
      sectorsPerFat := sectorsPerFat
      bytesPerSector_pos := Fat16Fs.sector_pos
      bytesPerSector_lt := Fat16Fs.sector_lt
      sectorsPerCluster_lt := Fat16Fs.one_lt_byte
      reservedSectors_lt := Fat16Fs.one_lt_word
      numFats_lt := Fat16Fs.one_lt_byte
      rootDirEntries_lt := Fat16Fs.sector_lt
      totalSectors_lt := by decide
      sectorsPerFat_lt := h }
  fatTable := ((List.replicate (256 * sectorsPerFat) 0xFFF7).set 2 clusterChainEnd).set f freeCluster
  disk := fun _ => 0
  fatTable_length := by
    simp only [List.length_set, List.length_replicate, Fat16Fs.totalFatEntries]
    exact entries_of_sectors sectorsPerFat

/-- The file of the chain from cluster 2. -/
def secondCluster : DirEntry := { DirEntry.zero with startCluster := 2 }

section OneFree

variable {spf f : Nat} {hspf : spf < 2 ^ 16}

private theorem oneFree_chain (hpos : 0 < spf) (hf : f ≠ 2) :
    (oneFree spf f hspf).view.Chain secondCluster.startCluster.toNat [2] := by
  refine .last ⟨clusterChainEnd, ?_, by decide⟩
  show (((List.replicate (256 * spf) (0xFFF7 : UInt16)).set 2 clusterChainEnd).set f freeCluster)[2]? = _
  rw [List.getElem?_set_ne hf, List.getElem?_set_self (by rw [List.length_replicate]; omega)]

private theorem oneFree_sound (hlen : 256 * spf ≤ 0xFFF8) : (oneFree spf f hspf).fs.Sound := by
  refine ⟨rfl, le_refl 1, le_refl 1, ?_⟩
  show spf * 512 / 2 ≤ 0xFFF8
  omega

private theorem oneFree_zero (hpos : 0 < spf) (hf : f ≠ 0) : (oneFree spf f hspf).fatTable[0]? ≠ some freeCluster := by
  show (((List.replicate (256 * spf) (0xFFF7 : UInt16)).set 2 clusterChainEnd).set f freeCluster)[0]? ≠ _
  rw [List.getElem?_set_ne hf, List.getElem?_set_ne (by omega), List.getElem?_replicate, if_pos (by omega)]
  decide

/-- An index that reads as free or as an end marker is no link: the cluster is taken, but is not part of the chain. -/
private theorem oneFree_lost (hf : f < 256 * spf) (hne : f ≠ 2)
    (hmark : (isEndOfClusterChain (UInt16.ofNat f) || UInt16.ofNat f == freeCluster) = true) :
    ∃ u w, fatAllocateSpace 1 (oneFree spf f hspf) secondCluster = some (true, u) ∧
      u.fatFreeChain secondCluster.startCluster.toNat = some w ∧
      (oneFree spf f hspf).fatTable[f]? = some freeCluster ∧ w.fatTable[f]? = some clusterChainEnd := by
  obtain ⟨v, hv⟩ : ∃ v, v = oneFree spf f hspf := ⟨_, rfl⟩
  have hsector : v.fs.bytesPerSector = 512 := by rw [hv]; rfl
  have htable : v.fatTable = ((List.replicate (256 * spf) 0xFFF7).set 2 clusterChainEnd).set f freeCluster := by
    rw [hv]
    rfl
  have hlen : v.fatTable.length = 256 * spf := by rw [htable]; simp
  have htwo : 2 < v.fatTable.length := by omega
  have hx : v.fatTable[2]? = some clusterChainEnd := by
    rw [htable, List.getElem?_set_ne hne, List.getElem?_set_self (by simpa using by omega)]
  have hfree : v.fatTable[f]? = some freeCluster := by
    rw [htable, List.getElem?_set_self (by simpa using hf)]
  have hfind : v.fatFindFree = some f := by
    obtain ⟨hflt, hfirst⟩ := List.getElem?_eq_some_iff.1 hfree
    refine List.findIdx?_eq_some_iff_getElem.2 ⟨hflt, beq_iff_eq.2 hfirst, ?_⟩
    intro j hj hjfree
    have hjget : v.fatTable[j]? = some freeCluster := List.getElem?_eq_some_iff.2 ⟨by omega, beq_iff_eq.1 hjfree⟩
    rw [htable, List.getElem?_set_ne (by omega), List.getElem?_set, List.getElem?_replicate] at hjget
    split at hjget
    · simp [clusterChainEnd, freeCluster] at hjget
    · split at hjget
      · simp [freeCluster] at hjget
      · cases hjget
  obtain ⟨u1, w1, hu1, hw1, htable1, hrw1⟩ := rewrites_store (UInt16.ofNat f) hsector htwo
  have hf1 : f < w1.fatTable.length := by rw [htable1, List.length_set]; omega
  obtain ⟨u2, w2, hu2, hw2, htable2, hrw2⟩ := rewrites_store clusterChainEnd (hrw1.fs ▸ hsector) hf1
  have hfs2 : w2.fs = v.fs := hrw2.fs.trans hrw1.fs
  obtain ⟨w3, hw3⟩ : ∃ w3, w2.fatWriteDataCluster f w2.zeroBuffer = some w3 := by
    have hfit : 512 * w2.fs.sectorsPerCluster ≤ w2.zeroBuffer.length := by
      rw [zeroBuffer, List.length_replicate, Fat16Fs.bytesPerCluster, hfs2, hsector]
    exact ⟨_, by rw [fatWriteDataCluster, ataWrite, if_pos hfit]; rfl⟩
  obtain ⟨_, htable3, _⟩ := fatWriteDataCluster_eq_some hw3
  have htable3 : w3.fatTable = (v.fatTable.set 2 (UInt16.ofNat f)).set f clusterChainEnd := by
    rw [htable3, htable2, htable1]
  have hx3 : w3.fatTable[2]? = some (UInt16.ofNat f) := by
    rw [htable3, List.getElem?_set_ne hne, List.getElem?_set_self htwo]
  have hsector3 : w3.fs.bytesPerSector = 512 := by
    rw [(fatWriteDataCluster_eq_some hw3).1, hfs2, hsector]
  have htwo3 : 2 < w3.fatTable.length := (List.getElem?_eq_some_iff.1 hx3).1
  obtain ⟨u4, w4, hu4, hw4, htable4, _⟩ := rewrites_store freeCluster hsector3 htwo3
  have hlast : v.lastOfChain v.walkFuel 2 = some (some 2) := by
    have hend : isEndOfClusterChain clusterChainEnd = true := by decide
    simp [walkFuel, lastOfChain, hx, hend]
  refine ⟨w3, w4, ?_, ?_, hv ▸ hfree, ?_⟩
  · rw [← hv]
    show fatAllocateSpace (0 + 1) v secondCluster = _
    have hstart : secondCluster.startCluster.toNat = 2 := rfl
    simp [fatAllocateSpace, fatUpdateChain, hfind, hstart, hlast, hu1, hw1, hu2, hw2, hw3]
  · show freeChainLoop (w3.fatTable.length + 1) w3 2 = _
    simp only [freeChainLoop, hx3, hu4, hw4, hmark, Option.bind_eq_bind, Option.bind_some, ↓reduceIte]
  · rw [htable4, List.getElem?_set_ne (Ne.symm hne), htable3, List.getElem?_set_self]
    rw [List.length_set]
    omega

private theorem oneFree_not_releasesExtended (hf : f < 256 * spf) (hne : f ≠ 2)
    (hmark : (isEndOfClusterChain (UInt16.ofNat f) || UInt16.ofNat f == freeCluster) = true) :
    ¬ ReleasesExtended (oneFree spf f hspf) secondCluster [2] 1 := by
  obtain ⟨u, w, hu, hw, hbefore, hafter⟩ := @oneFree_lost spf f hspf hf hne hmark
  intro h
  obtain ⟨b, u', w', hu', hw', hiff⟩ := h
  rw [hu, Option.some.injEq, Prod.mk.injEq] at hu'
  obtain ⟨_, rfl⟩ := hu'
  rw [hw] at hw'
  cases hw'
  have hfree := (hiff f).2 (.inl hbefore)
  rw [hafter] at hfree
  exact absurd hfree (by decide)

end OneFree

/-- `fatAllocateSpace_grows` where the cluster 5 is the only free one. -/
theorem fatAllocateSpace_grows_oneFree :
    ∃ b w, fatAllocateSpace 1 (oneFree 1 5 (by decide)) secondCluster = some (b, w) ∧
      (b = false ↔ (oneFree 1 5 (by decide)).view.freeCount < 1) ∧
      (b = true → ∃ ds, ds.length = 1 ∧ ds.Pairwise (· < ·) ∧
        (∀ d ∈ ds, (oneFree 1 5 (by decide)).fatTable[d]? = some freeCluster) ∧
        (∀ i, (oneFree 1 5 (by decide)).fatTable[i]? = some freeCluster → i ∉ ds → ∀ d ∈ ds, d < i) ∧
        Appended (oneFree 1 5 (by decide)) w secondCluster.startCluster.toNat [2] ds) :=
  fatAllocateSpace_grows 1 (oneFree_sound (by decide)) (oneFree_zero (by decide) (by decide))
    (oneFree_chain (by decide) (by decide))

/-- `fatFreeChain_releases` for that volume. -/
theorem fatFreeChain_releases_oneFree :
    (∃ w, (oneFree 1 5 (by decide)).fatFreeChain secondCluster.startCluster.toNat = some w ∧
        Released (oneFree 1 5 (by decide)) w [2]) ∧
      ReleasesExtended (oneFree 1 5 (by decide)) secondCluster [2] 1 := by
  obtain ⟨hreleased, hextended⟩ := fatFreeChain_releases (v := oneFree 1 5 (by decide)) rfl
    (oneFree_chain (by decide) (by decide))
  exact ⟨hreleased, hextended (oneFree_sound (by decide)) (oneFree_zero (by decide) (by decide)) 1 secondCluster rfl⟩

/-- A free first entry is taken but cannot be linked to, and neither can an index that reads as an end marker: the entry
is not free again. -/
theorem not_releasesExtended :
    ((oneFree 1 0 (by decide)).view.Chain secondCluster.startCluster.toNat [2] ∧
        ¬ ReleasesExtended (oneFree 1 0 (by decide)) secondCluster [2] 1) ∧
      (oneFree 256 0xFFF8 (by decide)).view.Chain secondCluster.startCluster.toNat [2] ∧
        (oneFree 256 0xFFF8 (by decide)).fatTable[0]? ≠ some freeCluster ∧
        ¬ ReleasesExtended (oneFree 256 0xFFF8 (by decide)) secondCluster [2] 1 := by
  refine ⟨⟨oneFree_chain (by decide) (by decide), ?_⟩, oneFree_chain (by decide) (by decide),
    oneFree_zero (by decide) (by decide), ?_⟩
  · exact oneFree_not_releasesExtended (by decide) (by decide) (by decide)
  · exact oneFree_not_releasesExtended (by decide) (by decide) (by decide)

end Volume

end DBolOS.Fat
