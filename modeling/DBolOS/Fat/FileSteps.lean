import DBolOS.Fat.FileStore
import DBolOS.Fat.LoaderWrite

/-!
# What one call does to the tapes

A write that fails has not touched a file or has made its chain longer by zeroes; one that succeeds overwrites its cells.  A
cut of a file with one cluster and a growth move the size, and a creation that goes through adds a blank tape.
-/

namespace DBolOS.Fat

open ByteMem Tape

namespace Volume

variable {v w : Volume} {ch ch' : Option Loc → List Nat} {σ : Store Loc UInt8} {q : Option Loc} {l : Loc}
  {p : DirEntry} {t : Tape UInt8} {offset size : Nat} {bs : List UInt8}

/-! ### Storing the size -/

/-- A record whose attribute ends its name is found. -/
private theorem updateFileSize_ne_error {file f : FileData} {cs : List Nat} (hs : v.fs.Sound)
    (h : v.view.Chain file.parentEntry.startCluster.toNat cs) (hfinds : v.view.Finds cs l (file.fileEntry.resize size))
    (hmem : l ∈ v.view.locs cs) (hslot : v.view.slot l = file.fileEntry) (hattr : file.fileEntry.attr = 0) :
    v.updateFileSize file size ≠ some (-1, f, w) := by
  intro hfail
  have hsame := Loader.sameString_resize hattr size
  have hupdate := fatUpdateDirEntry_spec (p := (file.fileEntry.resize size).sameString)
    (file.fileEntry.resize size) hs h fun l' hl' => nameEquals_toBytes (hfinds.defined l' hl')
  cases hfirst : v.firstSlot cs (file.fileEntry.resize size).sameString with
  | none =>
    obtain ⟨hc, hi⟩ := View.mem_locs.1 hmem
    exact firstSlot_eq_none hfirst hc hi (hslot ▸ hsame)
  | some l' =>
    rw [hfirst] at hupdate
    obtain ⟨u, hu, -⟩ := hupdate
    simp only [DirEntry.resize] at hu
    simp only [updateFileSize, hu, Option.bind_eq_bind, Option.bind_some] at hfail
    exact absurd (Prod.mk.inj (Option.some.inj hfail)).1 (by decide)

/-! ### Growing -/

/-- Growing a file leaves its chain grown when it fails, and stores the new size otherwise. -/
theorem fatTruncate_grow_cases (hs : v.fs.Sound) (h : v.view.Tree ch) (hf : v.FileAt q l p) (hsize : size < 2 ^ 32)
    (hgrow : (v.view.slot l).fileSize.toNat < size) :
    (∃ file w ds, v.fatTruncate ⟨v.view.slot l, p⟩ size = some (-1, file, w) ∧
      v.view.Grown w.view ch (some l) ds ∧ ((v.view.slot l).attr = 0 → file = ⟨v.view.slot l, p⟩)) ∨
    ∃ w ch' extra, v.fatTruncate ⟨v.view.slot l, p⟩ size = some (0, ⟨(v.view.slot l).resize size, p⟩, w) ∧
      v.view.FileChange w.view ch ch' l ∧ w.view.slot l = (v.view.slot l).resize size ∧ (∀ b ∈ extra, b = 0) ∧
      w.view.bytes (ch' (some l)) = v.view.bytes (ch (some l)) ++ extra ∧
      (ch' (some l)).length = size / v.fs.bytesPerCluster + 1 := by
  obtain ⟨hln, hmem⟩ := hf.node_file h
  have hfinds := hf.finds h hsize hgrow.ne'
  obtain ⟨r, e', w, ch', hcall, hchange, hr⟩ := fatTruncate_grow_spec hs h hln rfl hf.file hf.node hf.dir hmem hf.parent
    hsize hgrow hfinds
  rcases hr with rfl | ⟨rfl, rfl, hslot, ⟨extra, hzero, hbytes⟩, hcount⟩
  · left
    obtain ⟨b, u, ds, -, hgrown, hcases⟩ := truncateGrow_spec ⟨v.view.slot l, p⟩ hs h hln rfl hf.file hsize
    have htruncate : v.fatTruncate ⟨v.view.slot l, p⟩ size = v.truncateGrow ⟨v.view.slot l, p⟩ size := by
      rw [fatTruncate, if_neg (by simp [hf.file]), if_neg (Nat.not_lt.2 hgrow.le), if_pos hgrow]
    rcases hcases with ⟨-, hfail⟩ | ⟨-, -, hupdate⟩
    · exact ⟨_, u, ds, htruncate.trans hfail, hgrown, fun _ => rfl⟩
    have hfs : u.fs = v.fs := hgrown.fs
    have hql : q ≠ some l := by
      rintro rfl
      have hdir := hf.dir
      rw [View.dirent_some, hf.file] at hdir
      cases hdir
    have hqu : u.view.Chain p.startCluster.toNat (ch q) := by
      have := hgrown.tree.owns q ((hgrown.node q).2 hf.node)
      rwa [View.Owns, hgrown.dirent q hf.node, Function.update_of_ne hql, ← hf.parent] at this
    have hfindsu : u.view.Finds (ch q) l ((v.view.slot l).resize size) :=
      hfinds.congr hfs fun c hc => hgrown.data q hf.node c hc
    rcases updateFileSize_spec ⟨v.view.slot l, p⟩ (hfs ▸ hs) hqu hfindsu with hfail | ⟨u', hu', -⟩
    · refine ⟨_, u, ds, htruncate.trans (hupdate.trans hfail), hgrown, fun hattr => ?_⟩
      have hslot : u.view.slot l = v.view.slot l := by simpa only [View.dirent_some] using hgrown.dirent _ hln
      exact absurd hfail (updateFileSize_ne_error (hfs ▸ hs) hqu hfindsu (by rwa [View.locs_congr hgrown.fs]) hslot hattr)
    · have hret := hcall.symm.trans (htruncate.trans (hupdate.trans hu'))
      exact absurd (Prod.mk.inj (Option.some.inj hret)).1 (by decide)
  · exact .inr ⟨w, ch', extra, hcall, hchange, hslot, hzero, hbytes, hcount⟩

/-! ### Writing -/

private theorem bmod_ne_error {n : Nat} (h : n < 2 ^ 31) : Int.bmod n (2 ^ 32) ≠ -1 := by
  rw [(bmod_eq_iff (by omega : n < 2 ^ 32)).2 h]
  omega

/-- A write that fails changes nothing or has grown the chain. -/
theorem fatWrite_fails (hs : v.fs.Sound) (h : v.view.Tree ch) (hf : v.FileAt q l p) (hroom : offset + bs.length < 2 ^ 32)
    (hret : bs.length < 2 ^ 31) {e : DirEntry} (hcall : v.fatWrite (v.view.slot l) p offset bs = some (-1, e, w)) :
    e = v.view.slot l ∧ (w = v ∨ ∃ ds, v.view.Grown w.view ch (some l) ds) := by
  have hpos : 0 < v.fs.bytesPerCluster := View.bytesPerCluster_pos (view_sized hs)
  have hmod : (offset + bs.length) % 2 ^ 32 = offset + bs.length := Nat.mod_eq_of_lt hroom
  rw [fatWrite, fatWriteWith, if_neg (by simp [hf.file]), if_neg hpos.ne', hmod] at hcall
  by_cases hgrow : (v.view.slot l).fileSize.toNat < offset + bs.length
  · rcases fatTruncate_grow_cases hs h hf hroom hgrow with
      ⟨file, u, ds, hfail, hgrown, -⟩ | ⟨u, ch', extra, hu, hchange, hslot, -, -, hcount⟩
    · simp only [ensureSize, hgrow, ↓reduceIte, hfail, Option.bind_eq_bind, Option.bind_some] at hcall
      obtain ⟨-, heq⟩ := Prod.mk.inj (Option.some.inj hcall)
      obtain ⟨rfl, rfl⟩ := Prod.mk.inj heq
      exact ⟨rfl, .inr ⟨ds, hgrown⟩⟩
    · -- the chain reaches the offset, so the bytes are written
      have hfs : u.fs = v.fs := hchange.fs
      have hchain := hchange.tree.owns (some l) ((hchange.node _).2 (hf.node_file h).1)
      rw [View.Owns, View.dirent_some, hslot] at hchain
      have hidx : offset / v.fs.bytesPerCluster < (ch' (some l)).length := by
        rw [hcount]
        exact Nat.lt_succ_of_le (Nat.div_le_div_right (Nat.le_add_right _ _))
      have hseek := writeSeek_spec (hfs ▸ hs : u.fs.Sound) hchain hidx
      rw [List.getElem?_eq_getElem hidx] at hseek
      simp only [ensureSize, hgrow, ↓reduceIte, hu, Option.bind_eq_bind, Option.bind_some, ne_eq, not_true_eq_false, hseek,
        Option.bind_eq_some_iff] at hcall
      obtain ⟨_, -, hcall⟩ := hcall
      exact absurd (Prod.mk.inj (Option.some.inj hcall)).1 (bmod_ne_error hret)
  · simp only [ensureSize, hgrow, ↓reduceIte, Option.bind_eq_bind, Option.bind_some, ne_eq, not_true_eq_false,
      Option.bind_eq_some_iff] at hcall
    obtain ⟨o, -, hcall⟩ := hcall
    cases o with
    | none =>
      obtain ⟨-, heq⟩ := Prod.mk.inj (Option.some.inj hcall)
      exact ⟨(Prod.mk.inj heq).1.symm, .inl (Prod.mk.inj heq).2.symm⟩
    | some c =>
      simp only [Option.bind_eq_some_iff] at hcall
      obtain ⟨_, -, hcall⟩ := hcall
      exact absurd (Prod.mk.inj (Option.some.inj hcall)).1 (bmod_ne_error hret)

private theorem getD_splice {b : List UInt8} (hle : offset + bs.length ≤ b.length)
    (hcell : ∀ i, (b[i]?).getD 0 = t.cell i)
    (i : Nat) : ((splice b offset bs)[i]?).getD 0 = (t.write offset bs).cell i := by
  rw [getElem?_splice hle]
  by_cases hlt : i < offset
  · rw [if_neg (by omega), hcell, cell_write_of_lt hlt]
  by_cases hin : i < offset + bs.length
  · obtain ⟨k, rfl⟩ := Nat.exists_eq_add_of_le (Nat.not_lt.1 hlt)
    have hk : k < bs.length := by omega
    rw [if_pos ⟨by omega, hin⟩, Nat.add_sub_cancel_left, cell_write_add hk, List.getElem?_eq_getElem hk]
    rfl
  · rw [if_neg (by omega), hcell, cell_write_of_le (by omega)]

/-- A write puts its bytes into the tape, or fails and leaves the tapes. -/
theorem Refines.write (h : v.Refines ch σ) (hs : v.fs.Sound) (hf : v.FileAt q l p) (hroom : offset + bs.length < 2 ^ 32)
    (hret : bs.length < 2 ^ 31) : ∃ r e w ch', v.fatWrite (v.view.slot l) p offset bs = some (r, e, w) ∧ w.fs = v.fs ∧
      (r = -1 ∧ w.Refines ch' σ ∨ r = bs.length ∧ w.Refines ch' (σ.apply 0 (.write l offset bs))) := by
  obtain ⟨hln, hmem⟩ := hf.node_file h.tree
  obtain ⟨r, e, w, ch', hcall, hchange, hr⟩ := fatWrite_spec hs h.tree hln rfl hf.file hf.node hf.dir hmem
    hf.parent hroom fun hgrow => hf.finds h.tree hroom hgrow.ne'
  have hl := hf.isFile h.tree
  have hfs : w.fs = v.fs := hchange.fs
  rcases hr with rfl | ⟨hr, he, hslot, extra, hzero, hle, hbytes⟩
  · obtain ⟨-, rfl | ⟨ds, hgrown⟩⟩ := fatWrite_fails hs h.tree hf hroom hret hcall
    · exact ⟨_, _, _, _, hcall, hfs, .inl ⟨rfl, h⟩⟩
    · exact ⟨_, _, _, _, hcall, hfs, .inl ⟨rfl, h.grown hl hgrown⟩⟩
  · obtain ⟨t, ht⟩ := Option.isSome_iff_exists.1 ((h.files l).2 hl)
    refine ⟨r, e, w, ch', hcall, hfs, .inr ⟨hr.trans ((bmod_eq_iff (by omega : bs.length < 2 ^ 32)).2 hret), ?_⟩⟩
    rw [Store.apply, ht, Option.map_some]
    refine h.fileChange hl hchange ?_ fun i => ?_
    · have hlt := (v.view.slot l).fileSize.toNat_lt
      rw [hslot, he, toNat_resize (by omega), h.size l t ht, size_write]
    · rw [hbytes]
      exact getD_splice hle (fun i => by rw [getD_append_zeroes hzero, h.cell l t ht]) i

/-! ### Truncating -/

/-- Marking the only cluster of a file as the last one. -/
private theorem fileChange_mark {c : Nat} (h : v.view.Tree ch) (hl : v.IsFile l) (hone : ch (some l) = [c])
    (hw : w.view = v.view.setFat c clusterChainEnd) : v.view.FileChange w.view ch ch l := by
  have hfs : w.view.fs = v.view.fs := by rw [hw, View.setFat_fs]
  have hdata : ∀ d, w.view.data d = v.view.data d := fun d => by rw [hw, View.setFat_data]
  have hslot : ∀ l', w.view.slot l' = v.view.slot l' := fun l' => by rw [View.slot, View.slot, hdata]
  have hdirent : ∀ n, w.view.dirent n = v.view.dirent n := by
    intro n
    cases n with
    | none => rw [View.dirent_none, View.dirent_none, hfs]
    | some l' => exact hslot l'
  have hc : c ∈ ch (some l) := by rw [hone]; exact List.mem_singleton_self c
  have hlt : c < v.view.fat.length := h.lt_length hl.1 hc
  have hkeep : ∀ d, d ≠ c → w.view.fat[d]? = v.view.fat[d]? := by
    intro d hd
    rw [hw, View.getElem?_setFat, if_neg fun hand => hd hand.1.symm]
  have hmark : w.view.fat[c]? = some clusterChainEnd := by rw [hw, View.getElem?_setFat, if_pos ⟨rfl, hlt⟩]
  have hboth : w.view.Tree ch ∧ ∀ n, View.Node w.view n ↔ View.Node v.view n := by
    refine h.of_same_children hfs (fun n hn => ?_) (fun n l' _ => ?_) (fun n hn hfile => ?_) h.disjoint (fun i hi => ?_)
    · have howns := h.owns n hn
      rw [View.Owns, hdirent]
      by_cases hnl : n = some l
      · subst hnl
        rw [View.Owns, hone] at howns
        rw [hone]
        obtain ⟨tail, htail⟩ := howns.exists_cons
        rw [← (List.cons.inj htail).1]
        exact Linked.Chain.last ⟨_, hmark, by decide⟩
      · refine View.Chain.congr howns fun d hd => hkeep d ?_
        rintro rfl
        exact h.disjoint n (some l) hn hl.1 hnl hd hc
    · constructor
      · rintro ⟨hdir, hmem, hentry⟩
        exact ⟨by rwa [hdirent] at hdir, by rwa [View.locs_congr hfs] at hmem, by rwa [hslot] at hentry⟩
      · rintro ⟨hdir, hmem, hentry⟩
        exact ⟨by rwa [hdirent], by rwa [View.locs_congr hfs], by rwa [hslot]⟩
    · rw [hdirent] at hfile ⊢
      exact h.capacity n hn hfile
    · by_cases hic : i = c
      · exact ⟨_, by rw [hic]; exact hmark, by decide⟩
      · rw [hkeep i hic]
        exact h.reserved i hi
  exact ⟨hfs, hboth.1, hboth.2, fun _ _ => rfl, fun _ _ _ l' _ _ => hslot l', fun _ _ _ _ c _ => hdata c,
    by rw [hslot]; exact hl.2⟩

/-- Cutting a file with one cluster stores the new size, or the record is not found and nothing is stored. -/
theorem fatTruncate_cut_cases (hs : v.fs.Sound) (h : v.view.Tree ch) (hf : v.FileAt q l p)
    (hcut : size < (v.view.slot l).fileSize.toNat) (hone : (ch (some l)).length = 1) :
    (∃ file w, v.fatTruncate ⟨v.view.slot l, p⟩ size = some (-1, file, w) ∧ v.view.FileChange w.view ch ch l ∧
      (∀ c, w.view.data c = v.view.data c) ∧ (v.view.slot l).attr ≠ 0) ∨
    ∃ w, v.fatTruncate ⟨v.view.slot l, p⟩ size = some (0, ⟨(v.view.slot l).resize size, p⟩, w) ∧
      v.view.FileChange w.view ch ch l ∧ w.view.slot l = (v.view.slot l).resize size ∧
      ∀ c ∈ ch (some l), w.view.data c = v.view.data c := by
  have hpos : v.fs.bytesPerCluster ≠ 0 := (View.bytesPerCluster_pos (view_sized hs)).ne'
  have hl := hf.isFile h
  obtain ⟨hln, hmem⟩ := hf.node_file h
  have hsize : size < 2 ^ 32 := hcut.trans (v.view.slot l).fileSize.toNat_lt
  have hchain : v.view.Chain (v.view.slot l).startCluster.toNat (ch (some l)) := h.owns _ hln
  obtain ⟨c, hc⟩ := List.length_eq_one_iff.1 hone
  obtain ⟨tail, htail⟩ := hchain.exists_cons
  obtain rfl : (v.view.slot l).startCluster.toNat = c := by
    rw [hc] at htail
    exact (List.cons.inj htail).1.symm
  have hlt := h.lt_length hln (hc ▸ List.mem_singleton_self _)
  obtain ⟨u, hu, hview⟩ := storeFat_view (x := clusterChainEnd) hlt
  have hmark := fileChange_mark h hl hc hview
  have hfs : u.fs = v.fs := hmark.fs
  have htruncate : v.fatTruncate ⟨v.view.slot l, p⟩ size = u.updateFileSize ⟨v.view.slot l, p⟩ size := by
    have hfree : (ch (some l)).length - (size / v.fs.bytesPerCluster + 1) = 0 := by
      rw [hone]
      exact Nat.sub_eq_zero_of_le (Nat.succ_le_succ (Nat.zero_le _))
    rw [fatTruncate, if_neg (by simp [hf.file]), if_pos hcut, truncateShrink, fatGetClusterAmount_spec hchain]
    simp only [Option.bind_eq_bind, Option.bind_some, if_neg hpos, hfree, freeHead, hu]
  have hql : q ≠ some l := by
    rintro rfl
    have hdir := hf.dir
    rw [View.dirent_some, hf.file] at hdir
    cases hdir
  have hdata : ∀ c, u.view.data c = v.view.data c := fun c => by rw [hview, View.setFat_data]
  have hslot : ∀ l', u.view.slot l' = v.view.slot l' := fun l' => by rw [View.slot, View.slot, hdata]
  have hdirent : u.view.dirent q = v.view.dirent q := hmark.dirent h hf.node hql
  have hqu : u.view.Chain p.startCluster.toNat (ch q) := by
    have := hmark.tree.owns q ((hmark.node q).2 hf.node)
    rwa [View.Owns, hdirent, ← hf.parent] at this
  have hfinds : u.view.Finds (ch q) l ((v.view.slot l).resize size) :=
    (hf.finds h hsize hcut.ne).congr hfs fun c _ => hdata c
  have hmemu : l ∈ u.view.locs (ch q) := by rwa [View.locs_congr hmark.fs]
  rcases updateFileSize_spec ⟨v.view.slot l, p⟩ (hfs ▸ hs) hqu hfinds with hfail | ⟨w, hw, hwview⟩
  · refine .inl ⟨_, u, htruncate.trans hfail, hmark, hdata, fun hattr => ?_⟩
    exact updateFileSize_ne_error (hfs ▸ hs) hqu hfinds hmemu (hslot l) hattr hfail
  · have hcapacity := h.capacity _ hln (by rw [View.dirent_some]; exact hf.file)
    obtain ⟨hrecord, hself⟩ := View.FileChange.of_record (e := (v.view.slot l).resize size) hmark.tree
      (view_sized (hfs ▸ hs)) ((hmark.node q).2 hf.node) (by rw [hdirent]; exact hf.dir) hmemu (by rw [hslot]; rfl)
      hmark.kind (by rw [hslot]; rfl) hf.file (by
        rw [toNat_resize hsize, view_fs, hfs]
        exact hcut.le.trans hcapacity)
    rw [← hwview] at hrecord hself
    refine .inr ⟨w, htruncate.trans hw, hmark.trans h hf.file hrecord, hself, fun c hc' => ?_⟩
    -- the record lies in a cluster of the directory
    rw [hwview, View.data_putSlot_of_ne, hdata]
    rintro rfl
    exact h.disjoint _ _ hln hf.node hql.symm hc' (View.mem_locs.1 hmem).1

/-- Storing a smaller size for a file with one cluster. -/
private theorem Refines.cut (h : v.Refines ch σ) (hs : v.fs.Sound) (hf : v.FileAt q l p)
    (hcut : size < (v.view.slot l).fileSize.toNat) (hone : (ch (some l)).length = 1) :
    ∃ r file w, v.fatTruncate ⟨v.view.slot l, p⟩ size = some (r, file, w) ∧ w.fs = v.fs ∧
      (r = -1 ∧ w.Refines ch σ ∨ r = 0 ∧ w.Refines ch (σ.apply 0 (.resize l size))) := by
  have hl := hf.isFile h.tree
  have hsize : size < 2 ^ 32 := hcut.trans (v.view.slot l).fileSize.toNat_lt
  obtain ⟨t, ht⟩ := Option.isSome_iff_exists.1 ((h.files l).2 hl)
  rcases fatTruncate_cut_cases hs h.tree hf hcut hone with ⟨file, w, hcall, hchange, hdata, -⟩ | ⟨w, hcall, hchange, hself, hkeep⟩
  · have hslot : w.view.slot l = v.view.slot l := by rw [View.slot, View.slot, hdata]
    have hcell : ∀ i, ((w.view.bytes (ch (some l)))[i]?).getD 0 = t.cell i := fun i => by
      rw [View.bytes_congr fun c _ => hdata c, h.cell l t ht]
    have hsame := h.fileChange hl hchange (by rw [hslot, h.size l t ht]) hcell
    have hstore : Function.update σ l (some t) = σ := by rw [← ht, Function.update_eq_self]
    rw [hstore] at hsame
    exact ⟨_, _, w, hcall, hchange.fs, .inl ⟨rfl, hsame⟩⟩
  · refine ⟨_, _, w, hcall, hchange.fs, .inr ⟨rfl, ?_⟩⟩
    rw [Store.apply, ht, Option.map_some]
    refine h.fileChange hl hchange ?_ fun i => ?_
    · rw [hself, toNat_resize hsize, size_resize]
    · rw [View.bytes_congr hkeep, h.cell l t ht, cell_resize]

/-- A truncation moves the size of the tape, or fails and leaves the tapes. -/
theorem Refines.truncate (h : v.Refines ch σ) (hs : v.fs.Sound) (hf : v.FileAt q l p) (hsize : size < 2 ^ 32)
    (hone : size < (v.view.slot l).fileSize.toNat → (ch (some l)).length = 1) :
    ∃ r file w ch', v.fatTruncate ⟨v.view.slot l, p⟩ size = some (r, file, w) ∧ w.fs = v.fs ∧
      (r = -1 ∧ w.Refines ch' σ ∨ r = 0 ∧ w.Refines ch' (σ.apply 0 (.resize l size))) := by
  have hl := hf.isFile h.tree
  obtain ⟨t, ht⟩ := Option.isSome_iff_exists.1 ((h.files l).2 hl)
  rcases Nat.lt_trichotomy size (v.view.slot l).fileSize.toNat with hcut | heq | hgrow
  · obtain ⟨r, file, w, hcall, hfs, hr⟩ := h.cut hs hf hcut (hone hcut)
    exact ⟨r, file, w, ch, hcall, hfs, hr⟩
  · have hcall : v.fatTruncate ⟨v.view.slot l, p⟩ size = some (0, ⟨v.view.slot l, p⟩, v) := by
      rw [fatTruncate, if_neg (by simp [hf.file]), if_neg heq.not_lt, if_neg heq.not_gt]
    have hstore : σ.apply 0 (.resize l size) = σ := by
      have hresize : t.resize size = t := Tape.ext (by rw [size_resize, heq, h.size l t ht]) rfl
      rw [Store.apply, ht, Option.map_some, hresize, ← ht, Function.update_eq_self]
    exact ⟨0, _, v, ch, hcall, rfl, .inr ⟨rfl, by rwa [hstore]⟩⟩
  · rcases fatTruncate_grow_cases hs h.tree hf hsize hgrow with
      ⟨file, w, ds, hcall, hgrown, -⟩ | ⟨w, ch', extra, hcall, hchange, hslot, hzero, hbytes, -⟩
    · exact ⟨_, _, w, _, hcall, hgrown.fs, .inl ⟨rfl, h.grown hl hgrown⟩⟩
    · refine ⟨_, _, w, ch', hcall, hchange.fs, .inr ⟨rfl, ?_⟩⟩
      rw [Store.apply, ht, Option.map_some]
      refine h.fileChange hl hchange ?_ fun i => ?_
      · rw [hslot, toNat_resize hsize, size_resize]
      · rw [hbytes, getD_append_zeroes hzero, h.cell l t ht, cell_resize]

end Volume

end DBolOS.Fat
