import DBolOS.Fat.Grow

/-!
# Cutting a file

The loop of `fat_truncate` for a smaller size frees the clusters at the head of the chain and marks the one it comes to
as the last, while the record keeps pointing to the first.  The file keeps its prefix exactly when it has one cluster
(`shrinksTo_iff`).
-/

namespace DBolOS.Fat

open ByteMem Linked Volume

namespace Volume

variable {v v' w : Volume} {ch : Option Loc → List Nat} {l : Loc} {start : Nat} {cs : List Nat}

/-- A store into the table in memory. -/
theorem storeFat_view {i : Nat} {x : UInt16} (h : i < v.fatTable.length) :
    ∃ w, v.storeFat i x = some w ∧ w.view = v.view.setFat i x := by
  obtain ⟨w, hw⟩ : ∃ w, v.storeFat i x = some w := ⟨_, if_pos h⟩
  obtain ⟨-, hfs, htable, hdisk⟩ := storeFat_eq_some hw
  refine ⟨w, hw, view_eq hfs htable ?_ ?_⟩
  · intro c hc
    simp only [View.setFat_fat, view_fat, List.length_set] at hc
    rw [View.setFat_data, view_data hc]
    simp only [data, clusterSector, hfs, hdisk]
  · intro c hc
    simp only [View.setFat_fat, view_fat, List.length_set] at hc
    exact if_neg (by omega)

/-- The loop frees the first `n` clusters and comes to the next one. -/
private theorem freeHead_view {n : Nat} (h : v.view.Chain start cs) (hn : n < cs.length) :
    ∃ w, freeHead n v start = some (cs[n], w) ∧ w.view = v.view.freeAll (cs.take n) := by
  induction n generalizing v start cs with
  | zero =>
    obtain ⟨t, rfl⟩ := h.exists_cons
    exact ⟨v, rfl, rfl⟩
  | succ n ih =>
    rcases chain_cases h with ⟨rfl, -⟩ | ⟨x, t, rfl, hx, -, -, ht⟩
    · simp at hn
    · have hstart : start < v.fatTable.length := View.Chain.lt_length h h.mem_head
      obtain ⟨u, hu, hview⟩ := storeFat_view (x := freeCluster) hstart
      have hnodup := Linked.Chain.nodup v.view.terminates h
      have ht' : u.view.Chain x.toNat t := by
        refine View.Chain.congr ht fun c hc => ?_
        have hne : start ≠ c := by
          rintro rfl
          exact (List.nodup_cons.1 hnodup).1 hc
        rw [hview, View.getElem?_setFat, if_neg (fun hand => hne hand.1)]
      obtain ⟨w, hw, hview'⟩ := ih ht' (by simpa using hn)
      refine ⟨w, ?_, by rw [hview', hview]; rfl⟩
      simp only [freeHead, hx, hu, Option.bind_eq_bind, Option.bind_some, hw, List.getElem_cons_succ]

/-- The table after the call, and its data but for the record. -/
private theorem truncateShrink_view {file : FileData} {q : Option Loc} {e p : DirEntry} {size : Nat} (hs : v.fs.Sound)
    (h : v.view.Tree ch) (hl : View.Node v.view (some l)) (he : v.view.slot l = e) (hfile : e.isDirectory = false)
    (hq : View.Node v.view q) (hdir : (v.view.dirent q).isDirectory)
    (hp : p.startCluster = (v.view.dirent q).startCluster) (hfinds : v.view.Finds (ch q) l (e.resize size))
    {n last : Nat} (hn : n = (ch (some l)).length - (size / v.fs.bytesPerCluster + 1))
    (hlast : (ch (some l))[n]? = some last) (htruncate : v.truncateShrink ⟨e, p⟩ size = some (0, file, v')) :
    file = ⟨e.resize size, p⟩ ∧
      v'.view = ((v.view.freeAll ((ch (some l)).take n)).setFat last clusterChainEnd).putSlot l (e.resize size) := by
  have hpos : v.fs.bytesPerCluster ≠ 0 := (View.bytesPerCluster_pos (view_sized hs)).ne'
  have hchain : v.view.Chain e.startCluster.toNat (ch (some l)) := by
    have := h.owns _ hl
    rwa [View.Owns, View.dirent_some, he] at this
  obtain ⟨hlen, rfl⟩ := List.getElem?_eq_some_iff.1 hlast
  obtain ⟨u, hu, huview⟩ := freeHead_view hchain hlen
  have hulen : u.fatTable.length = v.fatTable.length := by
    have := congrArg (fun s => s.fat.length) huview
    simpa only [View.length_freeAll, view_fat] using this
  obtain ⟨w, hw, hwview⟩ := storeFat_view (v := u) (x := clusterChainEnd)
    (hulen ▸ View.Chain.lt_length hchain (List.getElem_mem hlen) : (ch (some l))[n] < u.fatTable.length)
  have hview : w.view = (v.view.freeAll ((ch (some l)).take n)).setFat (ch (some l))[n] clusterChainEnd := by
    rw [hwview, huview]
  have hfs : w.fs = v.fs := by
    have := congrArg View.fs hview
    simpa only [View.setFat_fs, View.freeAll_fs, view_fs] using this
  have hdata : ∀ c, w.view.data c = v.view.data c := by
    intro c
    rw [hview, View.setFat_data, View.freeAll_data]
  -- the chain of the directory has no cluster of the file
  have hql : q ≠ some l := by
    rintro rfl
    rw [View.dirent_some, he, hfile] at hdir
    cases hdir
  have hparent : w.view.Chain p.startCluster.toNat (ch q) := by
    have hown := h.owns q hq
    rw [View.Owns, ← hp] at hown
    refine View.Chain.congr hown fun c hc => ?_
    have hout : c ∉ ch (some l) := fun hin => h.disjoint _ _ hl hq hql.symm hin hc
    rw [hview, View.getElem?_setFat, if_neg, View.getElem?_freeAll, if_neg]
    · rintro ⟨hin, -⟩
      exact hout (List.mem_of_mem_take hin)
    · rintro ⟨rfl, -⟩
      exact hout (List.getElem_mem hlen)
  rw [truncateShrink, fatGetClusterAmount_spec hchain, Option.bind_eq_bind, Option.bind_some, if_neg hpos] at htruncate
  simp only [← hn, hu, Option.bind_eq_bind, Option.bind_some, hw] at htruncate
  rcases updateFileSize_spec ⟨e, p⟩ (hfs ▸ hs) hparent (hfinds.congr hfs fun c _ => hdata c) with
    hfail | ⟨w', hw', hview'⟩
  · rw [hfail] at htruncate
    obtain ⟨hret, -⟩ := Prod.mk.inj (Option.some.inj htruncate)
    cases hret
  · rw [hw'] at htruncate
    obtain ⟨-, heq⟩ := Prod.mk.inj (Option.some.inj htruncate)
    obtain ⟨rfl, rfl⟩ := Prod.mk.inj heq
    exact ⟨rfl, by rw [hview', hview]⟩

end Volume

/-- What cutting the file `e` with the clusters `ds` to `size` bytes should leave: the clusters up to that of the last
byte, the others free, and the bytes up to `size`. -/
structure ShrinksTo (v v' : Volume) (e e' : DirEntry) (ds : List Nat) (size : Nat) : Prop where
  start : e'.startCluster = e.startCluster
  chain : v'.view.Chain e'.startCluster.toNat (ds.take (size / v.fs.bytesPerCluster + 1))
  freed : ∀ c ∈ ds.drop (size / v.fs.bytesPerCluster + 1), v'.fatTable[c]? = some freeCluster
  bytes : ∀ offset n, offset + n ≤ size → v'.fatRead e' offset n = v.fatRead e offset n
  others : ∀ c, c ∉ ds.drop (size / v.fs.bytesPerCluster) → v'.fatTable[c]? = v.fatTable[c]?

/-- The same bytes read from a larger and from a smaller size. -/
private theorem View.read_below {s s' : View} {cs : List Nat} {fileSize size offset n : Nat}
    (h : s'.bytes cs = s.bytes cs)
    (hsize : size < fileSize) (hlt : fileSize < 2 ^ 32) (hn : offset + n ≤ size) :
    s'.read cs size offset n = s.read cs fileSize offset n := by
  have hmod : (offset + n) % 2 ^ 32 = offset + n := Nat.mod_eq_of_lt (by omega)
  unfold View.read
  rw [h, if_neg (by omega : ¬fileSize ≤ offset), hmod, if_neg (by omega : ¬fileSize < offset + n)]
  by_cases hend : size ≤ offset
  · obtain rfl : n = 0 := by omega
    rw [if_pos hend]
    simp
  · rw [if_neg hend, if_neg (by omega : ¬size < offset + n)]

/-- Cutting a file leaves what it should exactly when the file has one cluster. -/
theorem shrinksTo_iff {v v' : Volume} {q : Option Loc} {l : Loc} {cs ds : List Nat} {p e : DirEntry} {size : UInt32}
    {file : FileData} (hs : v.fs.Sound) (hwf : v.view.WellFormed) (hq : View.Node v.view q)
    (hdir : (v.view.dirent q).isDirectory) (hp : p.startCluster = (v.view.dirent q).startCluster)
    (hcs : v.view.Owns q cs) (hl : l ∈ v.view.locs cs) (he : v.view.slot l = e) (hentry : e.isEntry)
    (hfile : e.isDirectory = false) (hunique : ∀ l' ∈ v.view.locs cs, (v.view.slot l').nameStr = e.nameStr → l' = l)
    (hds : v.view.Chain e.startCluster.toNat ds) (hsize : size < e.fileSize)
    (htruncate : v.fatTruncate ⟨e, p⟩ size.toNat = some (0, file, v')) :
    ShrinksTo v v' e file.fileEntry ds size.toNat ↔ ds.length = 1 := by
  obtain ⟨ch, h⟩ := View.wellFormed_iff.1 hwf
  obtain rfl : ch q = cs := View.owns_functional (h.owns q hq) hcs
  have hln : View.Node v.view (some l) := .child hq hdir hcs hl (by rw [he]; exact hentry)
  obtain rfl : ch (some l) = ds := h.chain_eq hln he hds
  have hlt : size.toNat < e.fileSize.toNat := UInt32.lt_iff_toNat_lt.1 hsize
  have hpos : 0 < v.fs.bytesPerCluster := View.bytesPerCluster_pos (view_sized hs)
  have hcapacity : e.fileSize.toNat ≤ (ch (some l)).length * v.fs.bytesPerCluster := by
    have := h.capacity _ hln (by rw [View.dirent_some, he, hfile])
    rwa [View.dirent_some, he] at this
  have hcount : size.toNat / v.fs.bytesPerCluster < (ch (some l)).length :=
    Nat.div_lt_of_lt_mul (by rw [Nat.mul_comm]; omega)
  obtain ⟨n, hn⟩ : ∃ n, n = (ch (some l)).length - (size.toNat / v.fs.bytesPerCluster + 1) := ⟨_, rfl⟩
  have hnlen : n < (ch (some l)).length := hn ▸ Nat.sub_lt hds.length_pos (Nat.succ_pos _)
  obtain ⟨last, hlast⟩ : ∃ last, (ch (some l))[n]? = some last := ⟨_, List.getElem?_eq_getElem hnlen⟩
  have hshrink : v.truncateShrink ⟨e, p⟩ size.toNat = some (0, file, v') := by
    rw [← htruncate, Volume.fatTruncate, if_neg (by simp [hfile]), if_pos hlt]
  obtain ⟨rfl, hview⟩ := truncateShrink_view hs h hln he hfile hq hdir hp
    (View.finds_of_unique he size.toNat_lt hlt.ne hunique) hn hlast hshrink
  -- the table after the call
  have htable : ∀ c, v'.fatTable[c]? = if last = c ∧ c < v.fatTable.length then some clusterChainEnd
      else if c ∈ (ch (some l)).take n ∧ c < v.fatTable.length then some freeCluster else v.fatTable[c]? := by
    intro c
    have hfat := congrArg (fun s => s.fat[c]?) hview
    simp only [View.putSlot_fat, View.getElem?_setFat, View.getElem?_freeAll, View.length_freeAll] at hfat
    exact hfat
  have hlastlt : last < v.fatTable.length := h.lt_length hln (List.mem_of_getElem? hlast)
  have hnodup := Linked.Chain.nodup v.view.terminates hds
  obtain ⟨t, ht⟩ := hds.exists_cons
  constructor
  · intro hshrinks
    by_contra hone
    have hlong : 2 ≤ (ch (some l)).length := by
      have := hds.length_pos
      omega
    have hchain := hshrinks.chain
    rw [hshrinks.start] at hchain
    by_cases hzero : n = 0
    · -- nothing is freed, and the first cluster is marked as the last
      subst hzero
      rw [ht] at hlast
      obtain rfl : e.startCluster.toNat = last := Option.some.inj hlast
      have hend : v'.view.Chain e.startCluster.toNat [e.startCluster.toNat] :=
        Linked.Chain.last ⟨clusterChainEnd, by
          rw [view_fat, htable, if_pos ⟨rfl, hlastlt⟩], by decide⟩
      have hsame := congrArg List.length (Linked.Chain.functional v'.view.terminates hend hchain)
      rw [List.length_take, List.length_singleton] at hsame
      omega
    · -- the first cluster is free
      have hstart : e.startCluster.toNat ∈ (ch (some l)).take n := by
        obtain ⟨n, rfl⟩ := Nat.exists_eq_succ_of_ne_zero hzero
        rw [ht, List.take_succ_cons]
        exact List.mem_cons_self
      have hne : ¬(last = e.startCluster.toNat ∧ e.startCluster.toNat < v.fatTable.length) := by
        rintro ⟨rfl, -⟩
        have hdrop : e.startCluster.toNat ∈ (ch (some l)).drop n := by
          rw [List.mem_drop_iff_getElem]
          obtain ⟨_, hget⟩ := List.getElem?_eq_some_iff.1 hlast
          exact ⟨0, by omega, by simpa using hget⟩
        exact List.disjoint_take_drop hnodup (le_refl _) hstart hdrop
      have hfree : v'.fatTable[e.startCluster.toNat]? = some freeCluster := by
        rw [htable, if_neg hne, if_pos ⟨hstart, h.lt_length hln (List.mem_of_mem_take hstart)⟩]
      exact View.Chain.not_mem_of_free hchain hfree hchain.mem_head
  · intro hone
    obtain rfl : t = [] := by
      rw [ht, List.length_cons] at hone
      exact List.length_eq_zero_iff.1 (by omega)
    have hdiv : size.toNat / v.fs.bytesPerCluster = 0 := by omega
    obtain rfl : n = 0 := by omega
    rw [ht] at hlast
    obtain rfl : e.startCluster.toNat = last := Option.some.inj hlast
    have hmark : v'.fatTable[e.startCluster.toNat]? = some clusterChainEnd := by
      rw [htable, if_pos ⟨rfl, hlastlt⟩]
    have hchain' : v'.view.Chain e.startCluster.toNat (ch (some l)) := by
      rw [ht]
      exact Linked.Chain.last ⟨clusterChainEnd, hmark, by decide⟩
    refine ⟨rfl, ?_, ?_, ?_, ?_⟩
    · rw [hdiv, ht]
      rw [ht] at hchain'
      exact hchain'
    · rw [hdiv, ht]
      simp
    · intro offset m hm
      have hfs : v'.fs = v.fs := by
        have := congrArg View.fs hview
        simpa only [View.putSlot_fs, View.setFat_fs, View.freeAll_fs, view_fs] using this
      have hql : q ≠ some l := by
        rintro rfl
        rw [View.dirent_some, he, hfile] at hdir
        cases hdir
      have hbytes : v'.view.bytes (ch (some l)) = v.view.bytes (ch (some l)) := by
        refine View.bytes_congr fun c hc => ?_
        have hcl : c ≠ l.1 := by
          rintro rfl
          exact h.disjoint _ _ hln hq hql.symm hc (View.mem_locs.1 hl).1
        rw [hview, View.data_putSlot_of_ne _ hcl, View.setFat_data, View.freeAll_data]
      have hresize : (e.resize size.toNat).fileSize.toNat = size.toNat := toNat_resize size.toNat_lt
      show v'.fatRead (e.resize size.toNat) offset m = v.fatRead e offset m
      rw [fatRead_spec (e := e.resize size.toNat) (hfs ▸ hs) hchain' (h.zero_not_mem hln) hfile
        (by rw [hresize, hfs]; omega), fatRead_spec hs hds (h.zero_not_mem hln) hfile hcapacity, hresize,
        View.read_below hbytes hlt e.fileSize.toNat_lt hm]
    · intro c hc
      rw [hdiv, List.drop_zero, ht, List.mem_singleton] at hc
      rw [htable, if_neg (fun hand => hc hand.1.symm), if_neg (by simp)]

/-- Cutting the file of two clusters to 10 bytes frees the first cluster and keeps the second. -/
theorem not_shrinksTo : ∃ v file v', fatInit (some fun _ => 0) twoClusterDisk = some (some v) ∧ v.view.WellFormed ∧
    v.view.Chain 2 [2, 3] ∧ v.fatTruncate ⟨twoClusterFile, rootDir v.fs⟩ 10 = some (0, file, v') ∧
    ¬ShrinksTo v v' twoClusterFile file.fileEntry [2, 3] 10 := by
  have hrun : ((fatInit (some fun _ => 0) twoClusterDisk).bind fun mounted => mounted.bind fun v =>
      (v.fatTruncate ⟨twoClusterFile, rootDir v.fs⟩ 10).map fun r =>
        decide (r.1 = 0 ∧ v.fs.bytesPerCluster = 512 ∧ v.view.isChain 2 [2, 3] = true ∧
          v.view.isTree [(none, [0]), (some (0, 0), [2, 3])] = true ∧ r.2.2.fatTable[3]? = some clusterChainEnd)) =
      some true := by
    decide +kernel
  simp only [Option.bind_eq_some_iff, Option.map_eq_some_iff, decide_eq_true_eq] at hrun
  obtain ⟨_, hinit, v, rfl, ⟨r, file, v'⟩, htruncate, rfl, hbytes, hchain, htree, htable⟩ := hrun
  refine ⟨v, file, v', hinit, (View.wellFormed_of_isTree htree).1, View.chain_of_isChain hchain, htruncate, ?_⟩
  intro hshrinks
  have hfree := hshrinks.freed 3 (by rw [hbytes]; decide)
  rw [htable] at hfree
  exact absurd (Option.some.inj hfree) (by decide)

/-- `shrinksTo_iff` on a file of four bytes that is cut to one. -/
theorem shrinksTo_iff_oneCluster : ∃ v e₁ v₁ file v', fatInit (some fun _ => 0) emptyFileDisk = some (some v) ∧
    v.fatWrite emptyFile (rootDir v.fs) 0 [1, 2, 3, 4] = some (4, e₁, v₁) ∧
    v₁.fatTruncate ⟨e₁, rootDir v.fs⟩ 1 = some (0, file, v') ∧ ShrinksTo v₁ v' e₁ file.fileEntry [2] 1 := by
  have hrun : ((fatInit (some fun _ => 0) emptyFileDisk).bind fun mounted => mounted.bind fun v =>
      (v.fatWrite emptyFile (rootDir v.fs) 0 [1, 2, 3, 4]).bind fun r₁ =>
      (r₁.2.2.fatTruncate ⟨r₁.2.1, rootDir v.fs⟩ 1).map fun r =>
        decide (r₁.1 = 4 ∧ r.1 = 0 ∧ r₁.2.1 = emptyFile.resize 4 ∧ rootDir v.fs = rootDir r₁.2.2.fs ∧
          [r₁.2.2.fs.bytesPerSector, r₁.2.2.fs.sectorsPerCluster, r₁.2.2.fs.numFats, r₁.2.2.fs.totalFatEntries,
            r₁.2.2.fs.slotsPerCluster] = [512, 1, 1, 256, 16] ∧
          (r₁.2.2.view.isTree [(none, [0]), (some (0, 0), [2])] && r₁.2.2.view.isChain 0 [0] &&
            r₁.2.2.view.isChain 2 [2]) = true ∧
          r₁.2.2.view.slot (0, 0) = emptyFile.resize 4 ∧
          (List.range 16).filter (fun i => (r₁.2.2.view.slot (0, i)).nameStr = emptyFile.nameStr) = [0])) =
      some true := by
    decide +kernel
  simp only [Option.bind_eq_some_iff, Option.map_eq_some_iff, decide_eq_true_eq, List.cons.injEq, and_true,
    Bool.and_eq_true] at hrun
  obtain ⟨_, hinit, v, rfl, ⟨_, e₁, v₁⟩, hwrite, ⟨r, file, v'⟩, htruncate, rfl, rfl, rfl, hroot,
    ⟨hsector, hspc, hfats, hentries, hslots⟩, ⟨⟨htree, hrootChain⟩, hchain⟩, hslot, hnames⟩ := hrun
  dsimp only at hroot hsector hspc hfats hentries hslots htree hrootChain hchain hslot hnames htruncate
  have hs : v₁.fs.Sound := ⟨hsector, hspc.ge, hfats.ge, by rw [hentries]; decide⟩
  have hmem : ∀ l, l ∈ v₁.view.locs [0] ↔ l.1 = 0 ∧ l.2 < 16 := by
    intro l
    rw [View.mem_locs, List.mem_singleton, view_fs, hslots]
  have hunique : ∀ l' ∈ v₁.view.locs [0], (v₁.view.slot l').nameStr = (emptyFile.resize 4).nameStr → l' = (0, 0) := by
    rintro ⟨c, i⟩ hl hname
    obtain ⟨rfl, hi⟩ := (hmem _).1 hl
    have hin : i ∈ (List.range 16).filter fun i => (v₁.view.slot (0, i)).nameStr = emptyFile.nameStr := by
      rw [List.mem_filter]
      exact ⟨List.mem_range.2 hi, decide_eq_true hname⟩
    rw [hnames, List.mem_singleton] at hin
    rw [hin]
  refine ⟨v, _, v₁, file, v', hinit, hwrite, htruncate, ?_⟩
  exact (shrinksTo_iff (q := none) (l := (0, 0)) (p := rootDir v.fs) hs (View.wellFormed_of_isTree htree).1
    .root (rootDir_isDirectory v₁.fs) (by rw [hroot]; rfl) (View.chain_of_isChain hrootChain)
    ((hmem _).2 ⟨rfl, by decide⟩) hslot (by decide +kernel) (by decide +kernel) hunique
    (View.chain_of_isChain hchain) (by decide : (1 : UInt32) < _) htruncate).2 rfl

end DBolOS.Fat
