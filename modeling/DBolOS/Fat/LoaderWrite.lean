import DBolOS.Fat.Create
import DBolOS.Fat.Sync
import DBolOS.Fat.RoundTrip

/-!
# What the loader writes

The loader's `fat_write` extends the chain while it writes: a new cluster is linked in memory and in every FAT on disk when
the last one is full (`appendCluster_spec`), and so the FAT on disk follows the table.
-/

namespace DBolOS.Fat

open ByteMem

namespace View

/-- Link the cluster `n`, with its contents, behind `last`. -/
def link (s : View) (last n : Nat) : View := (s.setFat last (UInt16.ofNat n)).setFat n clusterChainEnd

variable {s : View} {ch : Option Loc → List Nat} {l : Loc}

private theorem link_eq (s : View) (last n : Nat) : s.link last n = (s.extend last n).write n (s.data n) := by
  have hdata : Function.update (Function.update s.data n s.zeroes) n (s.data n) = s.data := by
    rw [Function.update_idem, Function.update_eq_self]
  show (⟨s.fs, _, s.data⟩ : View) = ⟨s.fs, _, Function.update (Function.update s.data n s.zeroes) n (s.data n)⟩
  rw [hdata]
  rfl

/-- A cluster linked behind the chain of a file. -/
private theorem Tree.link (h : s.Tree ch) {last f : Nat} (hl : Node s (some l)) (hkind : (s.slot l).isDirectory = false)
    (hlast : (ch (some l)).getLast? = some last) (hf : s.fat[f]? = some freeCluster) (hlt : f < 0xFFF8) :
    s.FileChange (s.link last f) ch (Function.update ch (some l) (ch (some l) ++ [f])) l := by
  have hgrown := (h.grown_extend hl hlast hf hlt).fileChange hl hkind
  refine hgrown.trans h hkind ?_
  rw [link_eq]
  refine FileChange.of_contents hgrown.tree ((hgrown.node _).2 hl) hgrown.kind rfl rfl fun c hc => ?_
  refine Function.update_of_ne ?_ _ _
  rintro rfl
  rw [Function.update_self] at hc
  simp at hc

end View

namespace Loader

variable {v w : Volume}

/-! ### Changing the FATs on disk -/

/-- From `v` to `w` only the sectors of the FATs have changed. -/
structure FatOnly (v w : Volume) : Prop where
  fs : w.fs = v.fs
  table : w.fatTable = v.fatTable
  boot : bootSector w.disk = bootSector v.disk
  data : ∀ c, c < v.fatTable.length → w.data c = v.data c

private theorem FatOnly.refl (v : Volume) : FatOnly v v := ⟨rfl, rfl, rfl, fun _ _ => rfl⟩

private theorem FatOnly.trans {u : Volume} (h : FatOnly v w) (h' : FatOnly w u) : FatOnly v u :=
  ⟨h'.fs.trans h.fs, h'.table.trans h.table, h'.boot.trans h.boot,
    fun c hc => (h'.data c (by rwa [h.table])).trans (h.data c hc)⟩

/-- The two bytes that `patchFat` changes. -/
theorem patchFat_disk {i fat : Nat} {x : UInt16} (hgeo : Separated v.fs) (hi : i < v.fatTable.length)
    (hfat : fat < v.fs.numFats) :
    ∃ w, patchFat v i x fat = some w ∧ w.fs = v.fs ∧ w.fatTable = v.fatTable ∧
      w.disk = v.disk.writeBytes (512 * (v.fs.reservedSectors + fat * v.fs.sectorsPerFat) + 2 * i) (le16 x) := by
  have hlen := table_length hgeo
  have hres := v.fs.reservedSectors_lt
  have hspf := v.fs.sectorsPerFat_lt
  have hmul : (fat + 1) * v.fs.sectorsPerFat ≤ v.fs.numFats * v.fs.sectorsPerFat := Nat.mul_le_mul_right _ hfat
  rw [Nat.succ_mul] at hmul
  have hfats : v.fs.numFats * v.fs.sectorsPerFat ≤ 2 ^ 8 * 2 ^ 16 :=
    Nat.mul_le_mul v.fs.numFats_lt.le v.fs.sectorsPerFat_lt.le
  obtain ⟨a, ha⟩ : ∃ a, a = fat * v.fs.sectorsPerFat := ⟨_, rfl⟩
  have hlt : v.fs.reservedSectors + a + i * 2 / 512 < 2 ^ 29 := by omega
  have haddr : 512 * (v.fs.reservedSectors + a + i * 2 / 512) + i * 2 % 512 =
      512 * (v.fs.reservedSectors + a) + 2 * i := by omega
  rw [← ha]
  refine ⟨{ v with disk := v.disk.writeBytes (512 * (v.fs.reservedSectors + a) + 2 * i) (le16 x) }, ?_, rfl, rfl, rfl⟩
  have hoff : i * 2 % 512 + (le16 x).length ≤ 512 := by
    rw [length_le16]
    omega
  have hsector : ∀ addr, (splice (v.disk.readBytes addr 512) (i * 2 % 512) (le16 x)).length = 512 := by
    intro addr
    rw [length_splice (by simpa using hoff), length_readBytes]
  simp only [patchFat, hgeo.sector, ← ha, ataRead, ataAddr_of_lt hlt, Nat.mul_one, length_readBytes, ataWrite]
  rw [if_neg (by omega), if_pos (by rw [hsector]), List.take_of_length_le (by rw [hsector]), writeBytes_splice _ _ hoff,
    haddr]
  rfl

/-- An entry is set in one of the FATs; the first one is the FAT that `fat_init` reads. -/
private theorem patchFat_spec {i fat : Nat} {x : UInt16} (hs : v.fs.Sound) (hgeo : Separated v.fs)
    (hi : i < v.fatTable.length) (hfat : fat < v.fs.numFats) :
    ∃ w, patchFat v i x fat = some w ∧ FatOnly v w ∧ (fat ≠ 0 → w.fatSectors = v.fatSectors) ∧
      (fat = 0 → ∀ xs : List UInt16, xs.length = v.fatTable.length → v.fatSectors = xs.flatMap le16 →
        w.fatSectors = (xs.set i x).flatMap le16) := by
  have hlen := table_length hgeo
  have hres := v.fs.reservedSectors_lt
  have hone := hgeo.reserved
  have hspf := v.fs.sectorsPerFat_lt
  have hmul : (fat + 1) * v.fs.sectorsPerFat ≤ v.fs.numFats * v.fs.sectorsPerFat := Nat.mul_le_mul_right _ hfat
  rw [Nat.succ_mul] at hmul
  have hfats : v.fs.numFats * v.fs.sectorsPerFat ≤ 2 ^ 8 * 2 ^ 16 :=
    Nat.mul_le_mul v.fs.numFats_lt.le v.fs.sectorsPerFat_lt.le
  obtain ⟨a, ha⟩ : ∃ a, a = fat * v.fs.sectorsPerFat := ⟨_, rfl⟩
  obtain ⟨w, hpatch, hwfs, htable, hdisk⟩ := patchFat_disk (x := x) hgeo hi hfat
  rw [← ha] at hdisk
  refine ⟨w, hpatch, ⟨hwfs, htable, ?_, ?_⟩, ?_, ?_⟩
  · rw [bootSector, bootSector, ataRead, ataRead, hdisk, ataAddr_of_lt (by omega)]
    exact readBytes_write_disjoint _ (.inl (by omega))
  · intro c hc
    obtain ⟨hsec, hseclt, _⟩ := Volume.clusterSector_sound hs hc
    have hwsec : w.clusterSector c = v.clusterSector c := by rw [Volume.clusterSector, Volume.clusterSector, hwfs]
    rw [Volume.data, Volume.data, ataRead, ataRead, hwsec, hwfs, hdisk, ataAddr_of_lt hseclt, hsec]
    refine readBytes_write_disjoint _ (.inr ?_)
    rw [length_le16, Fat16Fs.rootDirStart]
    omega
  · intro hne
    have : v.fs.sectorsPerFat ≤ a := by
      rw [ha]
      exact Nat.le_mul_of_pos_left _ (Nat.pos_of_ne_zero hne)
    rw [Volume.fatSectors, Volume.fatSectors, ataRead, ataRead, hwfs, hdisk, ataAddr_of_lt (by omega)]
    exact readBytes_write_disjoint _ (.inl (by omega))
  · rintro rfl xs hxs hsectors
    rw [Nat.zero_mul] at ha
    subst ha
    have hwords : 512 * v.fs.sectorsPerFat = 2 * xs.length := by omega
    have hword : ((xs.set i x).drop i).take 1 = [x] := by
      rw [List.take_one, List.head?_drop, List.getElem?_set_self (by omega)]
      rfl
    rw [Volume.fatSectors, ataRead, ataAddr_of_lt (by omega), hwords] at hsectors
    rw [Volume.fatSectors, ataRead, hwfs, hdisk, ataAddr_of_lt (by omega), hwords, Nat.add_zero]
    have := @readBytes_write_words v.disk _ i 1 xs (xs.set i x) (List.length_set ..) (by omega)
      (List.take_set_of_le (le_refl i)) (List.drop_set_of_lt (Nat.lt_succ_self i)) hsectors
    rwa [hword, List.flatMap_singleton] at this

/-- The new links in one of the FATs. -/
def patchLink (currentCluster newCluster : Nat) (v : Volume) (fat : Nat) : Option Volume := do
  let v ← patchFat v currentCluster (UInt16.ofNat newCluster) fat
  patchFat v newCluster clusterChainEnd fat

private theorem patchLink_spec {i f fat : Nat} (hs : v.fs.Sound) (hgeo : Separated v.fs) (hi : i < v.fatTable.length)
    (hf : f < v.fatTable.length) (hfat : fat < v.fs.numFats) :
    ∃ w, patchLink i f v fat = some w ∧ FatOnly v w ∧ (fat ≠ 0 → w.fatSectors = v.fatSectors) ∧
      (fat = 0 → ∀ xs : List UInt16, xs.length = v.fatTable.length → v.fatSectors = xs.flatMap le16 →
        w.fatSectors = ((xs.set i (UInt16.ofNat f)).set f clusterChainEnd).flatMap le16) := by
  obtain ⟨u, hu, hvu, hrestu, hfirstu⟩ := patchFat_spec (x := UInt16.ofNat f) hs hgeo hi hfat
  obtain ⟨w, hw, huw, hrestw, hfirstw⟩ := patchFat_spec (v := u) (x := clusterChainEnd) (hvu.fs ▸ hs) (hvu.fs ▸ hgeo)
    (by rw [hvu.table]; exact hf) (by rw [hvu.fs]; exact hfat)
  refine ⟨w, ?_, hvu.trans huw, fun h0 => (hrestw h0).trans (hrestu h0), ?_⟩
  · simp [patchLink, hu, hw]
  · intro h0 xs hxs hsectors
    refine hfirstw h0 _ ?_ (hfirstu h0 xs hxs hsectors)
    rw [List.length_set, hvu.table]
    exact hxs

private theorem patchLink_rest {i f : Nat} {fats : List Nat} (hs : v.fs.Sound) (hgeo : Separated v.fs)
    (hi : i < v.fatTable.length) (hf : f < v.fatTable.length) (hfats : ∀ k ∈ fats, k ≠ 0 ∧ k < v.fs.numFats) :
    ∃ w, fats.foldlM (patchLink i f) v = some w ∧ FatOnly v w ∧ w.fatSectors = v.fatSectors := by
  induction fats generalizing v with
  | nil => exact ⟨v, rfl, FatOnly.refl v, rfl⟩
  | cons k fats ih =>
    obtain ⟨hk, hkfats⟩ := hfats k (by simp)
    obtain ⟨u, hu, hvu, hrest, _⟩ := patchLink_spec hs hgeo hi hf hkfats
    obtain ⟨w, hw, huw, hsectors⟩ := ih (hvu.fs ▸ hs) (hvu.fs ▸ hgeo) (by rwa [hvu.table]) (by rwa [hvu.table])
      fun j hj => by
        rw [hvu.fs]
        exact hfats j (by simp [hj])
    refine ⟨w, ?_, hvu.trans huw, hsectors.trans (hrest hk)⟩
    rw [List.foldlM_cons, hu]
    exact hw

/-- A cluster is linked behind `last`, and the FAT on disk follows. -/
theorem appendCluster_spec {last f : Nat} (hs : v.fs.Sound) (hgeo : Separated v.fs) (hl : last < v.fatTable.length)
    (hfree : v.fatFindFree = some f) :
    ∃ w, appendCluster v last = some (some f, w) ∧ WritesBack v w ∧ w.view = v.view.link last f := by
  have hf := (Volume.fatFindFree_eq_some hfree).2
  obtain ⟨u₁, hu₁⟩ : ∃ u, v.storeFat last (UInt16.ofNat f) = some u := ⟨_, if_pos hl⟩
  obtain ⟨_, hfs₁, htable₁, hdisk₁⟩ := Volume.storeFat_eq_some hu₁
  have hlen₁ : u₁.fatTable.length = v.fatTable.length := by rw [htable₁, List.length_set]
  obtain ⟨u₂, hu₂⟩ : ∃ u, u₁.storeFat f clusterChainEnd = some u := ⟨_, if_pos (by rw [hlen₁]; exact hf)⟩
  obtain ⟨_, hfs₂, htable₂, hdisk₂⟩ := Volume.storeFat_eq_some hu₂
  have hfs : u₂.fs = v.fs := hfs₂.trans hfs₁
  have hdisk : u₂.disk = v.disk := hdisk₂.trans hdisk₁
  have htable : u₂.fatTable = (v.fatTable.set last (UInt16.ofNat f)).set f clusterChainEnd := by rw [htable₂, htable₁]
  have hlen : u₂.fatTable.length = v.fatTable.length := by rw [htable₂, List.length_set, hlen₁]
  obtain ⟨k, hk⟩ : ∃ k, v.fs.numFats = k + 1 := Nat.exists_eq_succ_of_ne_zero (Nat.ne_of_gt hs.fats)
  obtain ⟨u₃, hu₃, h23, _, hfirst⟩ := @patchLink_spec u₂ last f 0 (hfs ▸ hs) (hfs ▸ hgeo)
    (by rwa [hlen]) (by rwa [hlen]) (by rw [hfs]; exact hs.fats)
  obtain ⟨w, hw, h3w, hrest⟩ := @patchLink_rest u₃ last f ((List.range k).map Nat.succ)
    (h23.fs ▸ hfs ▸ hs) (h23.fs ▸ hfs ▸ hgeo) (by rwa [h23.table, hlen]) (by rwa [h23.table, hlen]) fun j hj => by
      obtain ⟨j', hj', rfl⟩ := List.mem_map.1 hj
      rw [List.mem_range] at hj'
      rw [h23.fs, hfs, hk]
      exact ⟨Nat.succ_ne_zero _, Nat.succ_lt_succ hj'⟩
  have hframe := h23.trans h3w
  have hfold : (List.range u₂.fs.numFats).foldlM (patchLink last f) u₂ = some w := by
    rw [hfs, hk, List.range_succ_eq_map, List.foldlM_cons, hu₃]
    exact hw
  refine ⟨w, ?_, ⟨hframe.fs.trans hfs, ?_, ?_⟩, ?_⟩
  · simp only [appendCluster, hfree, hu₁, hu₂, Option.bind_eq_bind, Option.bind_some]
    rw [show (List.range u₂.fs.numFats).foldlM (fun v fat => (patchFat v last (UInt16.ofNat f) fat).bind fun v =>
      patchFat v f clusterChainEnd fat) u₂ = some w from hfold]
    rfl
  · intro hsynced
    have hsectors : u₂.fatSectors = v.fatTable.flatMap le16 := by
      rw [Volume.fatSectors, hfs, hdisk]
      exact hsynced
    rw [Volume.Synced, hrest, hfirst rfl _ hlen.symm hsectors, hframe.table, htable]
  · rw [hframe.boot, hdisk]
  · refine Volume.view_eq (hframe.fs.trans hfs) (hframe.table.trans htable) ?_ ?_
    · intro c hc
      have hc' : c < v.fatTable.length := by simpa [View.link] using hc
      rw [hframe.data c (by rwa [hlen])]
      refine Eq.trans ?_ (Volume.view_data hc').symm
      rw [Volume.data, Volume.data, Volume.clusterSector, Volume.clusterSector, hfs, hdisk]
    · intro c hc
      have hc' : v.fatTable.length ≤ c := by simpa [View.link] using hc
      exact if_neg (Nat.not_lt.2 hc')

/-! ### The loop of `fat_write` -/

variable {ch : Option Loc → List Nat} {l : Loc}

/-- What the loop has done after `k` bytes: the clusters `pre` before its first one are as they were, and the file goes on
with the bytes written. -/
structure Wrote (v w : Volume) (ch ch' : Option Loc → List Nat) (l : Loc) (pre : List Nat) (bs : List UInt8) (k : Nat) :
    Prop where
  change : v.view.FileChange w.view ch ch' l
  back : WritesBack v w
  keep : ∀ n, View.Node v.view n → n ≠ some l → ∀ c ∈ ch n, w.view.data c = v.view.data c
  before : ∃ t, ch' (some l) = pre ++ t
  kept : ∀ c ∈ pre, w.view.data c = v.view.data c
  contents : k = bs.length → ∃ rest, w.view.bytes (ch' (some l)) = v.view.bytes pre ++ bs ++ rest

private theorem wrote_last {cur : Nat} {pre : List Nat} {buffer : List UInt8} (hs : v.fs.Sound) (hgeo : Separated v.fs)
    (h : v.view.Tree ch) (hl : View.Node v.view (some l)) (hkind : (v.view.slot l).isDirectory = false)
    (hch : ch (some l) = pre ++ [cur]) (hlen : buffer.length = 512 * v.fs.sectorsPerCluster) :
    ∃ w, v.fatWriteDataCluster cur buffer = some w ∧ w.view = v.view.write cur buffer ∧
      v.view.FileChange w.view ch ch l ∧ WritesBack v w ∧
      (∀ n, View.Node v.view n → n ≠ some l → ∀ c ∈ ch n, w.view.data c = v.view.data c) ∧
      ∀ c ∈ pre, w.view.data c = v.view.data c := by
  have hcur : cur ∈ ch (some l) := by simp [hch]
  have hlt := h.lt_length hl hcur
  obtain ⟨w, hw, hview⟩ := Volume.fatWriteDataCluster_spec hs hlt hlen
  have hdata : ∀ c, c ≠ cur → w.view.data c = v.view.data c := by
    intro c hc
    rw [hview, View.write_data, Function.update_of_ne hc]
  have hnodup := Linked.Chain.nodup v.view.terminates (h.owns _ hl)
  refine ⟨w, hw, hview, ?_, ?_, ?_, ?_⟩
  · refine View.FileChange.of_contents h hl hkind (by rw [hview]; rfl) (by rw [hview]; rfl) fun c hc => hdata c ?_
    rintro rfl
    exact hc hcur
  · exact (dataOnly_fatWriteDataCluster hgeo (.inr hlt) hw).writesBack
  · intro n hn hnl c hc
    refine hdata c ?_
    rintro rfl
    exact h.disjoint n (some l) hn hl hnl hc hcur
  · intro c hc
    refine hdata c ?_
    rintro rfl
    rw [hch, List.nodup_append] at hnodup
    exact hnodup.2.2 c hc c (by simp) rfl

/-- The loop of the loader's `fat_write` from the last cluster of a file on: all bytes are written behind the clusters
before it, or the free clusters run out. -/
private theorem writeLoop_spec {n cur : Nat} {pre : List Nat} {bs buffer : List UInt8} (hs : v.fs.Sound)
    (hgeo : Separated v.fs)
    (h : v.view.Tree ch) (hl : View.Node v.view (some l)) (hkind : (v.view.slot l).isDirectory = false)
    (hch : ch (some l) = pre ++ [cur]) (hbuf : buffer.length = 512 * v.fs.sectorsPerCluster)
    (hn : bs.length ≤ n * v.fs.bytesPerCluster) :
    ∃ k w ch', writeLoop n v cur 0 bs buffer = some (k, w) ∧ k ≤ bs.length ∧ Wrote v w ch ch' l pre bs k := by
  have hdone : bs = [] → Wrote v v ch ch l pre bs 0 := by
    rintro rfl
    refine ⟨View.FileChange.refl h hkind, WritesBack.refl v, fun _ _ _ _ _ => rfl, ⟨_, hch⟩, fun _ _ => rfl, fun _ => ?_⟩
    exact ⟨v.view.data cur, by rw [hch]; simp [View.bytes]⟩
  induction n generalizing v ch cur pre bs buffer with
  | zero =>
    have hbs : bs = [] := List.length_eq_zero_iff.1 (by omega)
    exact ⟨0, v, ch, by simp [writeLoop, hbs], Nat.zero_le _, hdone hbs⟩
  | succ n ih =>
    by_cases hbs : bs = []
    · exact ⟨0, v, ch, by simp [writeLoop, hbs], Nat.zero_le _, hdone hbs⟩
    have hsized := Volume.view_sized hs
    have hpos : 0 < v.fs.bytesPerCluster := View.bytesPerCluster_pos hsized
    have hcur : cur ∈ ch (some l) := by simp [hch]
    have hlt := h.lt_length hl hcur
    have hdata : (v.view.data cur).length = v.fs.bytesPerCluster := by
      rw [Volume.bytesPerCluster_eq hs]
      exact hsized.cluster cur hlt
    obtain ⟨b, hload, hblen, hsplice⟩ := Volume.loadCluster_spec bs hs hlt hbuf hpos
    rw [Nat.sub_zero] at hsplice
    have hmin : bs.take (min v.fs.bytesPerCluster bs.length) = bs.take v.fs.bytesPerCluster :=
      List.take_eq_take_iff.2 (by omega)
    have hnew : (splice b 0 (bs.take v.fs.bytesPerCluster)).length = 512 * v.fs.sectorsPerCluster := by
      rw [length_splice, hblen]
      rw [List.length_take, hblen, ← Volume.bytesPerCluster_eq hs]
      omega
    obtain ⟨u, hu, hview, hchange, hback, hkeep, hkept⟩ := wrote_last hs hgeo h hl hkind hch hnew
    have hfs : u.fs = v.fs := congrArg View.fs hview
    have hfat : u.fatTable = v.fatTable := congrArg View.fat hview
    have hself : u.view.data cur = splice (v.view.data cur) 0 (bs.take v.fs.bytesPerCluster) := by
      rw [hview, View.write_data, Function.update_self, hsplice]
    have hpre : u.view.bytes pre = v.view.bytes pre := View.bytes_congr hkept
    rw [writeLoop, if_neg hbs, hload]
    simp only [Nat.sub_zero, Option.bind_eq_bind, Option.bind_some, hmin, hu]
    by_cases hspan : v.fs.bytesPerCluster < bs.length
    · rw [Nat.min_eq_left hspan.le, if_pos hspan]
      have hlastmem : (ch (some l)).getLast? = some cur := by rw [hch]; simp
      obtain ⟨x, hx, hend⟩ : v.view.IsLast cur := by
        have hchain := h.owns _ hl
        have hstop := hchain.stop_getLast
        rwa [List.getLast_eq_iff_getLast?_eq_some hchain.ne_nil |>.2 hlastmem] at hstop
      rw [hfat, show v.fatTable[cur]? = some x from hx, Option.bind_some, if_pos hend]
      have hfull : u.view.data cur = bs.take v.fs.bytesPerCluster := by
        rw [hself, splice, List.take_zero, List.nil_append, List.drop_eq_nil_of_le, List.append_nil]
        rw [List.length_take, hdata]
        omega
      cases hfree : u.fatFindFree with
      | none =>
        refine ⟨v.fs.bytesPerCluster, u, ch, by simp [appendCluster, hfree], hspan.le, hchange, hback, hkeep, ⟨_, hch⟩,
          hkept, fun hk => ?_⟩
        omega
      | some f =>
        have hsu : u.fs.Sound := hfs ▸ hs
        obtain ⟨t, ht, hbackt, hviewt⟩ := appendCluster_spec hsu (hfs ▸ hgeo) (by rwa [hfat]) hfree
        have hlinked := hchange.tree.link ((hchange.node _).2 hl) hchange.kind hlastmem
          (Volume.fatFindFree_eq_some hfree).1 (Volume.fatFindFree_lt hsu hfree)
        rw [← hviewt] at hlinked
        have hfst : t.fs = v.fs := hlinked.fs.trans hfs
        have hdatat : t.view.data = u.view.data := by rw [hviewt]; rfl
        have hboth := hchange.trans h hkind hlinked
        have hcht : Function.update ch (some l) (ch (some l) ++ [f]) (some l) = (pre ++ [cur]) ++ [f] := by
          rw [Function.update_self, hch]
        have hmul : (n + 1) * v.fs.bytesPerCluster = n * v.fs.bytesPerCluster + v.fs.bytesPerCluster := Nat.succ_mul ..
        have hlt' : (bs.drop v.fs.bytesPerCluster).length ≤ n * t.fs.bytesPerCluster := by
          rw [hfst, List.length_drop]
          omega
        obtain ⟨k, w, ch', hw, hk, hwrote⟩ := ih (v := t) (hfst ▸ hs) (hfst ▸ hgeo) hlinked.tree
          ((hboth.node _).2 hl) hlinked.kind hcht (by rwa [hfst]) hlt' (fun h0 => by
            have := congrArg List.length h0
            rw [List.length_drop, List.length_nil] at this
            omega)
        have hnode : ∀ m, View.Node v.view m → View.Node t.view m := fun m hm => (hboth.node m).2 hm
        refine ⟨v.fs.bytesPerCluster + k, w, ch', by simp [ht, hw], ?_, hboth.trans h hkind hwrote.change,
          (hback.trans hbackt).trans hwrote.back, ?_, ?_, ?_, ?_⟩
        · rw [List.length_drop] at hk
          omega
        · intro m hm hml c hc
          rw [hwrote.keep m (hnode m hm) hml c (by rwa [Function.update_of_ne hml]), hdatat]
          exact hkeep m hm hml c hc
        · obtain ⟨r, hr⟩ := hwrote.before
          exact ⟨cur :: r, by rw [hr, List.append_assoc]; rfl⟩
        · intro c hc
          rw [hwrote.kept c (List.mem_append_left _ hc), hdatat]
          exact hkept c hc
        · intro hall
          rw [List.length_drop] at hk
          obtain ⟨rest, hrest⟩ := hwrote.contents (by rw [List.length_drop]; omega)
          refine ⟨rest, ?_⟩
          have hsplit : t.view.bytes (pre ++ [cur]) = v.view.bytes pre ++ bs.take v.fs.bytesPerCluster := by
            rw [View.bytes_congr fun c _ => congrFun hdatat c, View.bytes, List.flatMap_append, ← View.bytes, hpre]
            simp [hfull]
          rw [hrest, hsplit, List.append_assoc (v.view.bytes pre), List.take_append_drop]
    · have hle := Nat.not_lt.1 hspan
      rw [Nat.min_eq_right hle, if_neg (Nat.lt_irrefl _)]
      refine ⟨bs.length, u, ch, rfl, le_refl _, hchange, hback, hkeep, ⟨_, hch⟩, hkept, fun _ => ?_⟩
      refine ⟨(v.view.data cur).drop bs.length, ?_⟩
      rw [hch, View.bytes, List.flatMap_append, ← View.bytes, hpre, List.append_assoc]
      simp [hself, splice, List.take_of_length_le hle]

/-- A record with a terminator before its size is found under its name at any size. -/
theorem sameString_resize {e : DirEntry} (hattr : e.attr = 0) (size : Nat) : (e.resize size).sameString e := by
  have hcstr : ∀ r : DirEntry, r.attr = 0 → cstr r.toBytes = r.nameStr := by
    intro r hr
    obtain ⟨u, hu⟩ := (DirEntry.toBytes_eq_append_iff (e := r) r.noNul_nameStr r.length_nameStr_le).2 ⟨rfl, fun _ => hr⟩
    rw [hu, cstr_append_zero r.noNul_nameStr]
  rw [DirEntry.sameString, decide_eq_true_eq, hcstr e hattr, hcstr (e.resize size) hattr]
  rfl

/-- A count of bytes that is returned whole. -/
theorem count_eq {k n : Nat} (hk : k ≤ n) (h : Int.bmod k (2 ^ 32) = n) : k = n ∧ n < 2 ^ 32 := by
  rw [Int.bmod_def] at h
  split at h <;> omega

/-- The loader's `fat_write` at offset 0 of a new file: when all bytes are written, the file consists of them and its
record holds their number. -/
theorem fatWrite_new {q : Option Loc} {p e e' : DirEntry} {c : Nat} {bs : List UInt8} (hs : v.fs.Sound)
    (hgeo : Separated v.fs) (h : v.view.Tree ch) (hl : View.Node v.view (some l)) (he : v.view.slot l = e)
    (hfile : e.isDirectory = false) (hattr : e.attr = 0) (hempty : e.fileSize = 0) (hc : ch (some l) = [c])
    (hq : View.Node v.view q) (hdir : (v.view.dirent q).isDirectory) (hmem : l ∈ v.view.locs (ch q))
    (hp : p.startCluster = (v.view.dirent q).startCluster)
    (hunique : ∀ l' ∈ v.view.locs (ch q), (v.view.slot l').nameStr = e.nameStr → l' = l)
    (hwrite : fatWrite v e p 0 bs = some ((bs.length : Int), e', w)) :
    ∃ ch', v.view.FileChange w.view ch ch' l ∧ WritesBack v w ∧ e' = e.resize bs.length ∧ w.view.slot l = e' ∧
      Int.bmod bs.length (2 ^ 32) = bs.length ∧ ∃ rest, w.view.bytes (ch' (some l)) = bs ++ rest := by
  have hkind : (v.view.slot l).isDirectory = false := by rw [he, hfile]
  have hpos : 0 < v.fs.bytesPerCluster := View.bytesPerCluster_pos (Volume.view_sized hs)
  have hlq : some l ≠ q := by
    rintro rfl
    rw [View.dirent_some, hkind] at hdir
    cases hdir
  have howns := h.owns _ hl
  rw [hc] at howns
  have hstart : e.startCluster.toNat = c := by
    obtain ⟨t, ht⟩ := howns.exists_cons
    rw [View.dirent_some, he] at ht
    exact (List.cons.inj ht).1.symm
  have hne : e.startCluster ≠ 0 := by
    intro h0
    have := h.zero_not_mem hl
    rw [hc, ← hstart, h0] at this
    simp at this
  have hfuel : bs.length ≤ (bs.length / v.fs.bytesPerCluster + 2) * v.fs.bytesPerCluster := by
    have := Volume.offset_fuel hpos 0 bs.length
    omega
  obtain ⟨k, u, ch', hloop, hk, hwrote⟩ := @writeLoop_spec v ch l _ c [] bs v.zeroBuffer hs hgeo h hl
    hkind hc (Volume.length_zeroBuffer hs) hfuel
  have hchange := hwrote.change
  have hfs : u.fs = v.fs := hchange.fs
  have hslot : u.view.slot l = e := by
    rw [View.slot, hwrote.keep q hq (Ne.symm hlq) l.1 (View.mem_locs.1 hmem).1]
    exact he
  have hzero : e.fileSize.toNat = 0 := by rw [hempty]; rfl
  simp only [fatWrite, hfile, Bool.false_eq_true, ↓reduceIte, hpos.ne', firstCluster, hne, ne_eq, not_false_eq_true,
    Nat.zero_div, writeSeek, hstart, Nat.zero_mod, Option.bind_eq_bind, Option.bind_some, hloop, Nat.zero_add,
    hzero] at hwrite
  split at hwrite
  · rename_i hgrow
    simp only [Option.bind_eq_some_iff] at hwrite
    obtain ⟨⟨b, w'⟩, hupdate, hwrite⟩ := hwrite
    simp only [Option.some.injEq, Prod.mk.injEq] at hwrite
    obtain ⟨hret, rfl, rfl⟩ := hwrite
    obtain ⟨rfl, hsize⟩ := count_eq hk hret
    have hrec : { e with fileSize := UInt32.ofNat (bs.length % 2 ^ 32) } = e.resize bs.length := by
      rw [Nat.mod_eq_of_lt hsize]
      rfl
    rw [Nat.mod_eq_of_lt hsize] at hgrow hupdate
    have hlocs : ∀ cs, u.view.locs cs = v.view.locs cs := View.locs_congr hfs
    have hslots : ∀ l' ∈ v.view.locs (ch q), u.view.slot l' = v.view.slot l' := by
      intro l' hl'
      rw [View.slot, View.slot, hwrote.keep q hq (Ne.symm hlq) l'.1 (View.mem_locs.1 hl').1]
    have hfinds := @View.finds_of_unique u.view l e (ch q) hslot _ hsize (by omega) fun l' hl' hname => by
      rw [hlocs] at hl'
      rw [hslots l' hl'] at hname
      exact hunique l' hl' hname
    have hchq : ch' q = ch q := hchange.chain q (Ne.symm hlq)
    have hqu : View.Node u.view q := (hchange.node q).2 hq
    have hdirent := hchange.dirent h hq (Ne.symm hlq)
    have hchainq : u.view.Chain p.startCluster.toNat (ch q) := by
      have := hchange.tree.owns q hqu
      rwa [View.Owns, hdirent, hchq, ← hp] at this
    have hspec := Volume.fatUpdateDirEntry_spec (p := (e.resize bs.length).sameString) (e.resize bs.length)
      (hfs ▸ hs) hchainq fun l' hl' => Volume.nameEquals_toBytes (hfinds.defined l' hl')
    have hmemu : l ∈ u.view.locs (ch q) := by rwa [hlocs]
    cases hfirst : u.firstSlot (ch q) (e.resize bs.length).sameString with
    | none =>
      obtain ⟨hcl, hil⟩ := View.mem_locs.1 hmemu
      have := Volume.firstSlot_eq_none hfirst hcl hil
      rw [hslot] at this
      exact absurd (sameString_resize hattr _) this
    | some l' =>
      obtain rfl : l' = l := hfinds.only l' hfirst
      rw [hfirst] at hspec
      obtain ⟨x, hx, hviewx⟩ := hspec
      rw [show { e with fileSize := UInt32.ofNat bs.length } = e.resize bs.length from rfl, hx] at hupdate
      simp only [Option.some.injEq, Prod.mk.injEq] at hupdate
      obtain ⟨rfl, rfl⟩ := hupdate
      have hlu : View.Node u.view (some l') := (hchange.node _).2 hl
      obtain ⟨rest, hrest⟩ := hwrote.contents rfl
      have hbytes : u.view.bytes (ch' (some l')) = bs ++ rest := by simpa using hrest
      have hroom : bs.length ≤ (ch' (some l')).length * u.fs.bytesPerCluster := by
        have hlen := View.length_bytes (Volume.view_sized (hfs ▸ hs)) fun c hc => hchange.tree.lt_length hlu hc
        rw [hbytes, List.length_append] at hlen
        exact (Nat.le_add_right _ _).trans hlen.le
      obtain ⟨hrecord, hself⟩ := View.FileChange.of_record (e := e.resize bs.length) hchange.tree
        (Volume.view_sized (hfs ▸ hs)) hqu (by rw [hdirent]; exact hdir) (by rwa [hchq]) (by rw [hslot]; rfl)
        (by rw [hslot, hfile]) (by rw [hslot]; rfl) hfile (by rw [Volume.toNat_resize hsize]; exact hroom)
      rw [← hviewx] at hrecord hself
      refine ⟨ch', hchange.trans h hkind hrecord,
        hwrote.back.trans (dataOnly_fatUpdateDirEntry (hwrote.back.separated hgeo) hx).writesBack, hrec,
        hself.trans hrec.symm, hret, rest, ?_⟩
      rw [← hbytes]
      refine View.bytes_congr fun c hc => ?_
      rw [hviewx]
      refine View.data_putSlot_of_ne _ ?_
      rintro rfl
      refine hchange.tree.disjoint (some l') q hlu hqu hlq hc ?_
      rw [hchq]
      exact (View.mem_locs.1 hmem).1
  · rename_i hsmall
    simp only [Option.some.injEq, Prod.mk.injEq] at hwrite
    obtain ⟨hret, rfl, rfl⟩ := hwrite
    obtain ⟨rfl, hsize⟩ := count_eq hk hret
    rw [Nat.mod_eq_of_lt hsize] at hsmall
    have hnil : bs.length = 0 := by omega
    obtain rfl := List.length_eq_zero_iff.1 hnil
    refine ⟨ch', hchange, hwrote.back, ?_, hslot, rfl, ?_⟩
    · exact (Volume.resize_self e hzero.symm).symm
    · obtain ⟨rest, hrest⟩ := hwrote.contents rfl
      exact ⟨rest, by simpa using hrest⟩

end Loader

end DBolOS.Fat
