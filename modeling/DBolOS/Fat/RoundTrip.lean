import DBolOS.Fat.Write

/-!
# Reading what was written

After a successful `fat_write` the file reads as the bytes written inside their range and as before outside it, its
record holds the larger of the two sizes, and every other entry and every other file is as it was.
-/

namespace DBolOS.Fat

open ByteMem Volume

theorem DirEntry.nameStr_of_sameString {e r : DirEntry} (h : e.sameString r) : r.nameStr = e.nameStr := by
  have hname : ∀ r : DirEntry, r.nameStr = (cstr r.toBytes).take 11 := by
    intro r
    obtain ⟨rest, hrest⟩ := r.exists_toBytes
    rw [hrest, ← cstr_take, List.take_left' (by simp), nameStr]
  rw [sameString, decide_eq_true_eq] at h
  rw [hname r, hname e, h]

namespace View

variable {s : View} {ch : Option Loc → List Nat} {l : Loc} {e : DirEntry} {cs : List Nat}

/-- The clusters of an entry are not the root's. -/
theorem Tree.zero_not_mem (h : s.Tree ch) (hl : Node s (some l)) : 0 ∉ ch (some l) := by
  intro h0
  have hroot := h.owns none .root
  exact h.disjoint none (some l) .root hl (by simp) hroot.mem_head h0

/-- A record with a name of its own in its directory is found under its name, whatever its size is set to. -/
theorem finds_of_unique (he : s.slot l = e) {size : Nat} (hsize : size < 2 ^ 32) (hne : size ≠ e.fileSize.toNat)
    (hunique : ∀ l' ∈ s.locs cs, (s.slot l').nameStr = e.nameStr → l' = l) : s.Finds cs l (e.resize size) := by
  constructor
  · intro l' hl'
    left
    intro heq
    obtain rfl := hunique l' hl' (by rw [heq]; rfl)
    rw [he] at heq
    have := congrArg (fun r => r.fileSize.toNat) heq
    simp only [Volume.toNat_resize hsize] at this
    exact hne this.symm
  · intro l' hl'
    have hsame := List.find?_some (p := fun l' => (e.resize size).sameString (s.slot l')) hl'
    have hname : (s.slot l').nameStr = (e.resize size).nameStr := DirEntry.nameStr_of_sameString hsame
    exact hunique l' (List.mem_of_find?_eq_some hl') hname

/-- What a read of one byte below the size returns. -/
theorem read_one {i fileSize : Nat} (hi : i < fileSize) (hsize : fileSize < 2 ^ 32) :
    s.read cs fileSize i 1 = (Int.bmod ((s.bytes cs)[i]?.toList.length) (2 ^ 32), (s.bytes cs)[i]?.toList) := by
  have hmod : (i + 1) % 2 ^ 32 = i + 1 := Nat.mod_eq_of_lt (by omega)
  have hone : ((s.bytes cs).drop i).take 1 = (s.bytes cs)[i]?.toList := by rw [List.take_one, List.head?_drop]
  simp only [read, if_neg (Nat.not_le.2 hi), hmod, if_neg (Nat.not_lt.2 (Nat.succ_le_of_lt hi)), hone]

/-- Reading the range of a write. -/
theorem read_splice {b w : List UInt8} {offset fileSize : Nat} (hb : s.bytes cs = splice b offset w)
    (hroom : offset + w.length ≤ b.length) (hsize : offset + w.length ≤ fileSize) (hlt : fileSize < 2 ^ 32)
    (hret : Int.bmod w.length (2 ^ 32) = w.length) : s.read cs fileSize offset w.length = ((w.length : Int), w) := by
  by_cases hend : fileSize ≤ offset
  · obtain rfl : w = [] := List.length_eq_zero_iff.1 (by omega)
    simp [read, hend]
  · have hmod : (offset + w.length) % 2 ^ 32 = offset + w.length := Nat.mod_eq_of_lt (by omega)
    have hread : ((s.bytes cs).drop offset).take w.length = w := by
      rw [hb]
      exact take_drop_splice (by omega)
    simp only [read, if_neg hend, hmod, if_neg (Nat.not_lt.2 hsize), hread, hret]

/-- Reading a byte outside the range of a write. -/
private theorem read_one_splice {s' : View} {cs' : List Nat} {extra w : List UInt8} {offset fileSize fileSize' i : Nat}
    (hb : s'.bytes cs' = splice (s.bytes cs ++ extra) offset w)
    (hroom : offset + w.length ≤ (s.bytes cs ++ extra).length) (hi : i < fileSize) (hlt : fileSize < 2 ^ 32)
    (hlen : fileSize ≤ (s.bytes cs).length) (hi' : i < fileSize') (hlt' : fileSize' < 2 ^ 32)
    (hout : i < offset ∨ offset + w.length ≤ i) : s'.read cs' fileSize' i 1 = s.read cs fileSize i 1 := by
  have hbyte : (s'.bytes cs')[i]? = (s.bytes cs)[i]? := by
    rw [hb, getElem?_splice hroom, if_neg (by omega), List.getElem?_append_left (by omega)]
  rw [read_one hi hlt, read_one hi' hlt', hbyte]

end View

variable {v v' : Volume} {q : Option Loc} {l : Loc} {cs : List Nat} {p e e' : DirEntry} {offset : Nat} {w : List UInt8}

/-- A regular file of a tree, as `fat_read` reads it. -/
theorem fatRead_of_tree {ch : Option Loc → List Nat} (hs : v.fs.Sound) (h : v.view.Tree ch) (hl : View.Node v.view (some l))
    (he : v.view.slot l = e) (hfile : e.isDirectory = false) :
    e.fileSize.toNat ≤ (v.view.bytes (ch (some l))).length ∧
      ∀ i size, v.fatRead e i size = some (v.view.read (ch (some l)) e.fileSize.toNat i size) := by
  have hcapacity : e.fileSize.toNat ≤ (ch (some l)).length * v.fs.bytesPerCluster := by
    have := h.capacity _ hl (by rw [View.dirent_some, he, hfile])
    rwa [View.dirent_some, he] at this
  have howns : v.view.Chain e.startCluster.toNat (ch (some l)) := by
    have := h.owns _ hl
    rwa [View.Owns, View.dirent_some, he] at this
  refine ⟨?_, fatRead_spec hs howns (h.zero_not_mem hl) hfile hcapacity⟩
  rw [View.length_bytes (view_sized hs) fun c hc => h.lt_length hl hc]
  exact hcapacity

/-- A file with the same record, the same clusters and the same contents reads the same. -/
theorem fatRead_congr {ch ch' : Option Loc → List Nat} (hs : v.fs.Sound) (hfs : v'.fs = v.fs) (h : v.view.Tree ch)
    (h' : v'.view.Tree ch') (hl : View.Node v.view (some l)) (hl' : View.Node v'.view (some l))
    (hslot : v'.view.slot l = v.view.slot l) (hfile : (v.view.slot l).isDirectory = false)
    (hch : ch' (some l) = ch (some l)) (hdata : ∀ c ∈ ch (some l), v'.view.data c = v.view.data c) (i size : Nat) :
    v'.fatRead (v.view.slot l) i size = v.fatRead (v.view.slot l) i size := by
  rw [(fatRead_of_tree hs h hl rfl hfile).2, (fatRead_of_tree (hfs ▸ hs) h' hl' hslot hfile).2, hch,
    View.read_congr hdata]

/-- A successful write to a regular file, and what is read after it. -/
theorem fatWrite_fatRead (hs : v.fs.Sound) (hwf : v.view.WellFormed) (hq : View.Node v.view q)
    (hdir : (v.view.dirent q).isDirectory) (hp : p.startCluster = (v.view.dirent q).startCluster)
    (hcs : v.view.Owns q cs) (hl : l ∈ v.view.locs cs) (he : v.view.slot l = e) (hentry : e.isEntry)
    (hfile : e.isDirectory = false) (hunique : ∀ l' ∈ v.view.locs cs, (v.view.slot l').nameStr = e.nameStr → l' = l)
    (hsize : offset + w.length < 2 ^ 32) (hwrite : v.fatWrite e p offset w = some ((w.length : Int), e', v')) :
    v'.fatRead e' offset w.length = some ((w.length : Int), w) ∧
      (∀ i < e.fileSize.toNat, i < offset ∨ offset + w.length ≤ i → v'.fatRead e' i 1 = v.fatRead e i 1) ∧
      (e'.fileSize.toNat = max e.fileSize.toNat (offset + w.length) ∧ v'.view.slot l = e') ∧
      (∀ n, View.Node v'.view n ↔ View.Node v.view n) ∧
      (∀ n ds, View.Node v.view n → (v.view.dirent n).isDirectory → v.view.Owns n ds →
        v'.view.Owns n ds ∧ ∀ l' ∈ v.view.locs ds, l' ≠ l → v'.view.slot l' = v.view.slot l') ∧
      ∀ l', View.Node v.view (some l') → l' ≠ l → (v.view.slot l').isDirectory = false →
        ∀ i size, v'.fatRead (v.view.slot l') i size = v.fatRead (v.view.slot l') i size := by
  obtain ⟨ch, h⟩ := View.wellFormed_iff.1 hwf
  obtain rfl : ch q = cs := View.owns_functional (h.owns q hq) hcs
  have hln : View.Node v.view (some l) := .child hq hdir hcs hl (by rw [he]; exact hentry)
  have hkind : (v.view.slot l).isDirectory = false := by rw [he, hfile]
  have hdirne : ∀ n, (v.view.dirent n).isDirectory → n ≠ some l := by
    rintro n hn rfl
    rw [View.dirent_some, hkind] at hn
    cases hn
  obtain ⟨r, e₁, w₁, ch', hspec, hchange, hr⟩ := fatWrite_spec hs h hln he hfile hq hdir hl hp hsize fun hgrow =>
    View.finds_of_unique he hsize hgrow.ne' hunique
  rw [hwrite] at hspec
  simp only [Option.some.injEq, Prod.mk.injEq] at hspec
  obtain ⟨rfl, rfl, rfl⟩ := hspec
  rcases hr with hr | ⟨hr, hrecord, hslot, extra, -, hroom, hbytes⟩
  · omega
  have hfs : v'.fs = v.fs := hchange.fs
  have hs' : v'.fs.Sound := hfs ▸ hs
  have hln' : View.Node v'.view (some l) := (hchange.node _).2 hln
  have hmax : max e.fileSize.toNat (offset + w.length) < 2 ^ 32 := by
    have := e.fileSize.toNat_lt
    omega
  have hsize' : e'.fileSize.toNat = max e.fileSize.toNat (offset + w.length) := by rw [hrecord, Volume.toNat_resize hmax]
  have hfile' : e'.isDirectory = false := by rw [hrecord]; exact hfile
  have hcapacity : e.fileSize.toNat ≤ (ch (some l)).length * v.fs.bytesPerCluster := by
    have := h.capacity _ hln (by rw [View.dirent_some, hkind])
    rwa [View.dirent_some, he] at this
  have hcapacity' : e'.fileSize.toNat ≤ (ch' (some l)).length * v'.fs.bytesPerCluster := by
    have := hchange.tree.capacity _ hln' (by rw [View.dirent_some, hchange.kind])
    rwa [View.dirent_some, hslot] at this
  have howns : v.view.Chain e.startCluster.toNat (ch (some l)) := by
    have := h.owns _ hln
    rwa [View.Owns, View.dirent_some, he] at this
  have howns' : v'.view.Chain e'.startCluster.toNat (ch' (some l)) := by
    have := hchange.tree.owns _ hln'
    rwa [View.Owns, View.dirent_some, hslot] at this
  have hread := fatRead_spec hs howns (h.zero_not_mem hln) hfile hcapacity
  have hread' := fatRead_spec hs' howns' (hchange.tree.zero_not_mem hln') hfile' hcapacity'
  have hlength : (v.view.bytes (ch (some l))).length = (ch (some l)).length * v.fs.bytesPerCluster :=
    View.length_bytes (view_sized hs) fun c hc => h.lt_length hln hc
  have hlt' := e'.fileSize.toNat_lt
  refine ⟨?_, ?_, ⟨hsize', hslot⟩, hchange.node, ?_, ?_⟩
  · rw [hread', View.read_splice hbytes hroom (by omega) hlt' hr.symm]
  · intro i hi hout
    rw [hread, hread', View.read_one_splice hbytes hroom hi e.fileSize.toNat_lt (by omega) (by omega) hlt' hout]
  · intro n ds hn hd hds
    obtain rfl : ch n = ds := View.owns_functional (h.owns n hn) hds
    refine ⟨?_, hchange.dir n hn hd⟩
    rw [← hchange.chain n (hdirne n hd)]
    exact hchange.tree.owns n ((hchange.node n).2 hn)
  · intro l' hn' hne hd i size
    have hne' : some l' ≠ some l := fun heq => hne (Option.some.inj heq)
    have hn'' := (hchange.node _).2 hn'
    have hslot' := hchange.dirent h hn' hne'
    rw [View.dirent_some, View.dirent_some] at hslot'
    exact fatRead_congr hs hfs h hchange.tree hn' hn'' hslot' hd (hchange.chain _ hne') (hchange.file _ hn' hne' hd) i size

/-- `fatWrite_fatRead` on the file of the image, which a write at offset 1022 makes grow by a cluster. -/
theorem fatWrite_fatRead_twoClusterDisk :
    ∃ v e' v', fatInit (some fun _ => 0) twoClusterDisk = some (some v) ∧
      v.fatWrite twoClusterFile (rootDir v.fs) 1022 [1, 2, 3, 4] = some (4, e', v') ∧
      v'.fatRead e' 1022 4 = some (4, [1, 2, 3, 4]) := by
  have hmount : ((fatInit (some fun _ => 0) twoClusterDisk).bind fun mounted => mounted.bind fun v =>
      (v.fatWrite twoClusterFile (rootDir v.fs) 1022 [1, 2, 3, 4]).map fun r =>
        (r.1, [v.fs.bytesPerSector, v.fs.sectorsPerCluster, v.fs.numFats, v.fs.totalFatEntries, v.fs.slotsPerCluster],
          v.view.isTree [(none, [0]), (some (0, 0), [2, 3])] && v.view.isChain 0 [0], v.view.slot (0, 0),
          (List.range 16).filter fun i => (v.view.slot (0, i)).nameStr = twoClusterFile.nameStr)) =
      some (4, [512, 1, 1, 256, 16], true, twoClusterFile, [0]) := by decide +kernel
  simp only [Option.bind_eq_some_iff, Option.map_eq_some_iff, Prod.mk.injEq, List.cons.injEq, and_true,
    Bool.and_eq_true] at hmount
  obtain ⟨_, hinit, v, rfl, ⟨r, e', v'⟩, hwrite, rfl, ⟨hsector, hspc, hfats, hentries, hslots⟩, ⟨htree, hchain⟩, hslot,
    hnames⟩ := hmount
  have hs : v.fs.Sound := ⟨hsector, hspc.ge, hfats.ge, by rw [hentries]; decide⟩
  have hmem : ∀ l, l ∈ v.view.locs [0] ↔ l.1 = 0 ∧ l.2 < 16 := by
    intro l
    rw [View.mem_locs, List.mem_singleton, view_fs, hslots]
  refine ⟨v, e', v', hinit, hwrite, ?_⟩
  have hread := fatWrite_fatRead (q := none) (l := (0, 0)) (p := rootDir v.fs) hs (View.wellFormed_of_isTree htree).1
    .root (rootDir_isDirectory v.fs) rfl (View.chain_of_isChain hchain) ((hmem _).2 ⟨rfl, by decide⟩) hslot
    (by decide +kernel) (by decide +kernel) ?_ (by simp) hwrite
  · exact hread.1
  · rintro ⟨c, i⟩ hl hname
    obtain ⟨rfl, hi⟩ := (hmem _).1 hl
    have hin : i ∈ (List.range 16).filter fun i => (v.view.slot (0, i)).nameStr = twoClusterFile.nameStr := by
      rw [List.mem_filter]
      exact ⟨List.mem_range.2 hi, by simpa using hname⟩
    rw [hnames, List.mem_singleton] at hin
    rw [hin]

end DBolOS.Fat
