import DBolOS.Lib.Run
import DBolOS.Fat.FileSteps

/-!
# Runs on the files of a volume

A creation adds a blank tape or leaves the tapes, and so each call does one operation on the store or none.  Over a run the
files are what the operations of the calls that succeeded make of the tapes at its start, and each byte of a file is the one
that was put there last.
-/

namespace DBolOS.Fat

open ByteMem Tape Machine

/-! ### Creating -/

namespace View

variable {s : View}

/-- A cluster of empty records is a cluster of zeroes. -/
private theorem getD_of_zero_slots (hs : s.Sized) {c : Nat} (hc : c < s.fat.length)
    (h : ∀ i < s.fs.slotsPerCluster, s.slot (c, i) = DirEntry.zero) (k : Nat) : ((s.data c)[k]?).getD 0 = 0 := by
  by_cases hk : k < (s.data c).length
  · have hlen := hs.cluster c hc
    have hi : k / 32 < s.fs.slotsPerCluster := by
      rw [slotsPerCluster_eq hs.sound]
      omega
    have hslot : DirEntry.ofBytes (((s.data c).drop (32 * (k / 32))).take 32) = DirEntry.zero := h _ hi
    have hbytes : ((s.data c).drop (32 * (k / 32))).take 32 = List.replicate 32 0 := by
      have hrecord : (((s.data c).drop (32 * (k / 32))).take 32).length = 32 := by
        rw [List.length_take, List.length_drop]
        omega
      rw [← DirEntry.toBytes_ofBytes hrecord, hslot]
      decide
    have hget := congrArg (fun b => (b[k % 32]?).getD 0) hbytes
    simp only [List.getElem?_take_of_lt (Nat.mod_lt k (by decide : 0 < 32)), List.getElem?_drop, Nat.div_add_mod] at hget
    rw [hget, List.getElem?_replicate, if_pos (Nat.mod_lt k (by decide))]
    rfl
  · rw [List.getElem?_eq_none (Nat.not_lt.1 hk)]
    rfl

end View

namespace Volume

variable {v w u : Volume} {ch ch' : Option Loc → List Nat} {σ : Store Loc UInt8} {q : Option Loc} {l : Loc}
  {e : DirEntry} {f : Nat} {ds : List Nat} {stale : ByteMem} {path : List UInt8}

/-- From `v` to `w` the file keeps its record, its chain and its clusters. -/
def SameFile (v w : Volume) (ch ch' : Option Loc → List Nat) (l : Loc) : Prop :=
  w.view.slot l = v.view.slot l ∧ ch' (some l) = ch (some l) ∧ ∀ c ∈ ch (some l), w.view.data c = v.view.data c

private theorem Refines.of_files (h : v.Refines ch σ) (htree : w.view.Tree ch') (hfiles : ∀ l, w.IsFile l ↔ v.IsFile l)
    (hsame : ∀ l, v.IsFile l → v.SameFile w ch ch' l) : w.Refines ch' σ := by
  refine ⟨htree, fun l => (h.files l).trans (hfiles l).symm, fun l t ht => ?_, fun l t ht i => ?_⟩
  · obtain ⟨hslot, -, -⟩ := hsame l ((h.files l).1 (by rw [ht]; rfl))
    rw [hslot]
    exact h.size l t ht
  · obtain ⟨-, hchain, hdata⟩ := hsame l ((h.files l).1 (by rw [ht]; rfl))
    rw [hchain, View.bytes_congr hdata]
    exact h.cell l t ht i

/-- A creation that is given up frees the cluster that it has claimed. -/
private theorem Refines.undo (h : v.Refines ch σ) (hs : v.fs.Sound) (hfree : v.fatFindFree = some f)
    (hview : u.view = v.view.claim f) (he : e.startCluster.toNat = f) :
    ∃ w, u.undoCreate e = some (GENERAL_ERROR, w) ∧ w.fs = v.fs ∧ w.Refines ch σ := by
  obtain ⟨hf, -⟩ := fatFindFree_eq_some hfree
  have hfs : u.fs = v.fs := congrArg View.fs hview
  have hchain : u.view.Chain f [f] := by
    rw [hview]
    exact View.chain_claim hf
  obtain ⟨w, hw, hwview⟩ := fatFreeChain_spec (hfs ▸ hs : u.fs.Sound) hchain
  have hundo : u.undoCreate e = some (GENERAL_ERROR, w) := by
    rw [undoCreate, he, hw]
    rfl
  obtain ⟨hclaimed, hnode, hdirent⟩ := h.tree.claim hf
  have hout : ∀ n, View.Node v.view n → f ∉ ch n := fun n hn => h.tree.not_mem_of_free hn hf
  have htwo : ∀ c ∈ [f], 2 ≤ c := fun c hc => by
    rw [List.mem_singleton.1 hc]
    exact h.tree.two_le_of_free hf
  obtain ⟨hfreed, hnode', hdirent'⟩ := hclaimed.freeAll
    (fun n hn => List.disjoint_singleton.2 (hout n ((hnode n).1 hn))) htwo
  rw [← hview] at hclaimed hnode hdirent hfreed hnode' hdirent'
  rw [← hwview] at hfreed hnode' hdirent'
  have hsame : ∀ l, v.IsFile l → v.SameFile w ch ch l := by
    intro l hl
    refine ⟨?_, rfl, fun c hc => ?_⟩
    · exact (hdirent' (some l) ((hnode _).2 hl.1)).trans (hdirent (some l) hl.1)
    · rw [hwview, View.freeAll_data, hview, View.claim, View.write_data, Function.update_of_ne, View.setFat_data]
      rintro rfl
      exact hout _ hl.1 hc
  refine ⟨w, hundo, ?_, h.of_files hfreed (fun l => ?_) hsame⟩
  · have : w.view.fs = v.view.fs := by rw [hwview, View.freeAll_fs, hview]; rfl
    exact this
  · rw [IsFile, hnode', hnode, IsFile]
    refine and_congr_right fun hn => ?_
    have hslot : w.view.slot l = v.view.slot l :=
      (hdirent' (some l) ((hnode _).2 hn)).trans (hdirent (some l) hn)
    rw [hslot]

/-- The files that were there before an entry was added. -/
private theorem sameFile_added (h : v.view.Tree ch) (ha : v.view.Added u.view ch ch' q ds l e f)
    (hdir : (v.view.dirent q).isDirectory) {l' : Loc} (hl' : v.IsFile l') : v.SameFile u ch ch' l' := by
  have hne : some l' ≠ some l := fun heq => ha.new (heq ▸ hl'.1)
  have hq : some l' ≠ q := by
    rintro rfl
    rw [View.dirent_some, hl'.2] at hdir
    cases hdir
  exact ⟨ha.dirent h hl'.1, by rw [ha.chain _ hne, Function.update_of_ne hq], ha.file _ hl'.1 hl'.2⟩

private theorem isFile_added (h : v.view.Tree ch) (ha : v.view.Added u.view ch ch' q ds l e f) (l' : Loc) :
    u.IsFile l' ↔ v.IsFile l' ∨ l' = l ∧ e.isDirectory = false := by
  rw [IsFile, ha.node, IsFile]
  by_cases hl' : l' = l
  · subst hl'
    rw [ha.slot]
    exact ⟨fun hn => .inr ⟨rfl, hn.2⟩, fun hn => hn.elim (fun hn => absurd hn.1 ha.new) fun hn => ⟨.inr rfl, hn.2⟩⟩
  · constructor
    · rintro ⟨hn | hn, hfile⟩
      · have hslot : u.view.slot l' = v.view.slot l' := ha.dirent h hn
        rw [hslot] at hfile
        exact .inl ⟨hn, hfile⟩
      · exact absurd (Option.some.inj hn) hl'
    · rintro (⟨hn, hfile⟩ | ⟨heq, -⟩)
      · have hslot : u.view.slot l' = v.view.slot l' := ha.dirent h hn
        exact ⟨.inl hn, by rw [hslot]; exact hfile⟩
      · exact absurd heq hl'

private theorem Refines.addedDirectory (h : v.Refines ch σ) (ha : v.view.Added u.view ch ch' q ds l e f)
    (hdir : (v.view.dirent q).isDirectory) (he : e.isDirectory = true) : u.Refines ch' σ := by
  refine h.of_files ha.tree (fun l' => ?_) fun l' hl' => sameFile_added h.tree ha hdir hl'
  rw [isFile_added h.tree ha]
  simp [he]

private theorem Refines.addedFile (h : v.Refines ch σ) (ha : v.view.Added u.view ch ch' q ds l e f)
    (hdir : (v.view.dirent q).isDirectory) (he : e.isDirectory = false) (hsize : e.fileSize = 0)
    (hzero : ∀ i : Nat, ((u.view.data f)[i]?).getD 0 = 0) : σ l = none ∧ u.Refines ch' (σ.apply 0 (.fresh l)) := by
  have hnone : σ l = none := by
    by_contra hsome
    exact ha.new ((h.files l).1 (Option.isSome_iff_ne_none.2 hsome)).1
  refine ⟨hnone, ha.tree, fun l' => ?_, fun l' t ht => ?_, fun l' t ht i => ?_⟩
  · rw [isFile_added h.tree ha, Store.apply]
    by_cases hl' : l' = l
    · simp [hl', he]
    · simp [hl', h.files]
  · rw [Store.apply] at ht
    by_cases hl' : l' = l
    · rw [hl', Function.update_self] at ht
      rw [hl', ha.slot, hsize, ← Option.some.inj ht]
      rfl
    · rw [Function.update_of_ne hl'] at ht
      rw [(sameFile_added h.tree ha hdir ((h.files l').1 (by rw [ht]; rfl))).1]
      exact h.size l' t ht
  · rw [Store.apply] at ht
    by_cases hl' : l' = l
    · rw [hl', Function.update_self] at ht
      rw [hl', ha.own, View.bytes_cons, View.bytes_nil, List.append_nil, hzero, ← Option.some.inj ht]
      rfl
    · rw [Function.update_of_ne hl'] at ht
      obtain ⟨-, hchain, hdata⟩ := sameFile_added h.tree ha hdir ((h.files l').1 (by rw [ht]; rfl))
      rw [hchain, View.bytes_congr hdata]
      exact h.cell l' t ht i

/-- Storing the count of a directory leaves the tapes. -/
private theorem Refines.counted (h : v.Refines ch σ) (hs : v.fs.Sound) {directory : List UInt8} {r p : DirEntry}
    {n : Option Loc} (hin : v.InDirectory stale path directory r p) (hn : v.view.StandsFor p n)
    (hdir : r.isDirectory) (hends : Ends directory) (hc : v.StoresCount w ch n (counted r))
    (hno : directory = [slash] → v.firstSlot (ch none) (DirEntry.answersTo [tilde]) = none) : w.Refines ch σ := by
  rcases hc.own h.tree hin hn hends hno with rfl | ⟨hp, lr, hlr, rfl, hw⟩
  · exact h
  · obtain ⟨htree, hnode, hdirent⟩ := h.tree.putSlot_same (e := Volume.counted (v.view.slot lr)) (view_sized hs) hn.node hlr
      rfl fun _ => ⟨rfl, rfl, fun hfile => absurd (hdir.symm.trans hfile) (by decide)⟩
    rw [← hw.view] at htree hnode hdirent
    have hne : ∀ l, (v.view.slot l).isDirectory = false → some l ≠ some lr := by
      rintro l hfile heq
      rw [← Option.some.inj heq, hfile] at hdir
      cases hdir
    refine h.of_files htree (fun l => ?_) fun l hl => ⟨hdirent _ (hne l hl.2), rfl, fun c hc' => ?_⟩
    · rw [IsFile, hnode, IsFile]
      refine and_congr_right fun _ => ?_
      by_cases hl : l = lr
      · obtain ⟨hself, -⟩ := h.tree.putSlot_facts (view_sized hs) (Volume.counted (v.view.slot lr)) hn.node hlr
        rw [hl, hw.view, hself]
        rfl
      · have hslot : w.view.slot l = v.view.slot l := hdirent (some l) fun heq => hl (Option.some.inj heq)
        rw [hslot]
    · rw [hw.view, View.data_putSlot_of_ne]
      rintro rfl
      have hnf : some l ≠ n := by
        rintro rfl
        have := hn.kind
        rw [hp, View.dirent_some, hl.2] at this
        cases this
      exact h.tree.disjoint _ _ hl.1 hn.node hnf hc' (View.mem_locs.1 hlr).1

/-- A creation adds a blank tape, or leaves the tapes. -/
private theorem Refines.create (h : v.Refines ch σ) (hs : v.fs.Sound) {isDirectory : Bool}
    (hallowed : v.Allowed (.create stale path isDirectory)) {r : Int}
    (hcall : v.fatCreate stale path isDirectory = some (r, w)) : w.fs = v.fs ∧ ∃ ch',
      (r ≠ SUCCESS ∨ isDirectory = true) ∧ w.Refines ch' σ ∨
        r = SUCCESS ∧ isDirectory = false ∧ ∃ l, σ l = none ∧ w.Refines ch' (σ.apply 0 (.fresh l)) := by
  by_cases hasks : v.AsksForCluster stale path
  · obtain ⟨hne, directory, r₀, p, hin, hends, hroot⟩ := hallowed hasks
    obtain ⟨f, hfree⟩ := Option.ne_none_iff_exists'.1 hne
    obtain ⟨name, hlets⟩ := letsCreate_of_asks hs hin hasks
    obtain ⟨q, hq⟩ := hin.leads.standsFor
    obtain ⟨_, -, hto⟩ := hin.above
    obtain ⟨n, hn⟩ := hto.standsFor
    have hdir : (v.view.dirent q).isDirectory := hq.kind ▸ hlets.dir
    have hstart : (newEntry (subName name) (UInt16.ofNat f) isDirectory).startCluster.toNat = f :=
      toNat_ofNat_of_free hs hfree
    rcases fatCreate_cases isDirectory hs h.tree hlets hq hn hfree rfl with
      ⟨-, u, -, hview, heq⟩ | ⟨-, u, w', ch', ds, l, heq, ha, hinu, hslots, hcount⟩
    · obtain ⟨w', hundo, hfs, href⟩ := h.undo hs hfree hview hstart
      rw [heq, hundo] at hcall
      obtain ⟨rfl, rfl⟩ := Prod.mk.inj (Option.some.inj hcall)
      exact ⟨hfs, ch, .inl ⟨.inl (by decide), href⟩⟩
    · rw [heq] at hcall
      obtain ⟨rfl, rfl⟩ := Prod.mk.inj (Option.some.inj hcall)
      have hfsu : u.fs = v.fs := ha.fs
      have hcounted : ∀ τ, u.Refines ch' τ → w'.Refines ch' τ := by
        intro τ hτ
        refine hτ.counted (hfsu ▸ hs) hinu (hn.added h.tree ha) hlets.dir hends hcount ?_
        rintro rfl
        obtain rfl := hin.root
        obtain rfl := hq.unique v.view.standsFor_rootDir h.tree
        obtain ⟨hnul, -, -, -, -, htilde⟩ := checkFileName_spec hlets.legal
        refine firstSlot_added_eq_none ha .root (hroot rfl _ (h.tree.owns none .root)) (View.answersTo_eq_false ?_)
          (View.answersTo_eq_false (by decide))
        rw [(newEntry_spec _ _ hlets.legal hlets.length).1]
        exact htilde
      refine ⟨hcount.fs.trans hfsu, ch', ?_⟩
      cases isDirectory with
      | true => exact .inl ⟨.inr rfl, hcounted _ (h.addedDirectory ha hdir (newEntry_isDirectory _ _ _))⟩
      | false =>
        have hfile : (newEntry (subName name) (UInt16.ofNat f) false).isDirectory = false := newEntry_isDirectory _ _ _
        have hzero : ∀ i : Nat, ((u.view.data f)[i]?).getD 0 = 0 := by
          refine View.getD_of_zero_slots (view_sized (hfsu ▸ hs)) ?_ fun i hi => ?_
          · refine ha.tree.lt_length ((ha.node (some l)).2 (.inr rfl)) ?_
            rw [ha.own]
            exact List.mem_singleton_self f
          · rw [hslots i (by rwa [view_fs, hfsu] at hi), newSlot, if_neg (by simp [hfile]), if_neg (by simp [hfile])]
        obtain ⟨hnone, href⟩ := h.addedFile ha hdir hfile rfl hzero
        exact .inr ⟨rfl, rfl, l, hnone, hcounted _ href⟩
  · obtain ⟨hr, rfl⟩ := fatCreate_of_not_asks hasks hcall
    exact ⟨rfl, ch, .inl ⟨.inl hr, h⟩⟩

/-! ### Runs -/

/-- Each call does one operation on the store, or none. -/
private theorem Refines.step (h : v.Refines ch σ) (hs : v.fs.Sound) {c : FileCall} (hallowed : v.Allowed c) {r : Int}
    (hcall : v.perform (c.call v) = some (r, w)) : w.fs = v.fs ∧ ∃ ch',
      Skips c r ∧ w.Refines ch' σ ∨ ∃ op, Does σ c r op ∧ w.Refines ch' (σ.apply 0 op) := by
  cases c with
  | create stale path isDirectory =>
    have hcreate : v.fatCreate stale path isDirectory = some (r, w) := by
      cases isDirectory <;> exact hcall
    obtain ⟨hfs, ch', hr⟩ := h.create hs hallowed hcreate
    refine ⟨hfs, ch', ?_⟩
    rcases hr with ⟨hr | rfl, href⟩ | ⟨rfl, rfl, l, hnone, href⟩
    · exact .inl ⟨.create isDirectory hr, href⟩
    · by_cases hr : r = SUCCESS
      · subst hr
        exact .inl ⟨.createDirectory, href⟩
      · exact .inl ⟨.create true hr, href⟩
    · exact .inr ⟨_, .create hnone, href⟩
  | write q l parentDir offset buffer =>
    obtain ⟨hf, hroom, hret⟩ := hallowed
    obtain ⟨r', e, w', ch', hwrite, hfs, hr⟩ := h.write hs hf hroom hret
    simp only [perform, FileCall.call, hwrite, Option.bind_eq_bind, Option.bind_some] at hcall
    obtain ⟨rfl, rfl⟩ := Prod.mk.inj (Option.some.inj hcall)
    refine ⟨hfs, ch', ?_⟩
    rcases hr with ⟨rfl, href⟩ | ⟨rfl, href⟩
    · exact .inl ⟨.write, href⟩
    · exact .inr ⟨_, .write, href⟩
  | truncate q l parentDir size =>
    obtain ⟨hf, hone⟩ := hallowed
    obtain ⟨r', file, w', ch', htruncate, hfs, hr⟩ := h.truncate hs hf size.toNat_lt fun hcut =>
      hone (UInt32.lt_iff_toNat_lt.2 hcut) _ (h.tree.owns _ (hf.node_file h.tree).1)
    simp only [perform, FileCall.call, htruncate, Option.bind_eq_bind, Option.bind_some] at hcall
    obtain ⟨rfl, rfl⟩ := Prod.mk.inj (Option.some.inj hcall)
    refine ⟨hfs, ch', ?_⟩
    rcases hr with ⟨rfl, href⟩ | ⟨rfl, href⟩
    · exact .inl ⟨.truncate, href⟩
    · exact .inr ⟨_, .truncate, href⟩

/-- A call returns; a creation when its checks let the path through. -/
private theorem Refines.returns (h : v.Refines ch σ) (hs : v.fs.Sound) {c : FileCall} (hallowed : v.Allowed c)
    (hasks : ∀ stale path isDirectory, c = .create stale path isDirectory → v.AsksForCluster stale path) :
    ∃ r w, v.perform (c.call v) = some (r, w) := by
  cases c with
  | create stale path isDirectory =>
    have hask := hasks _ _ _ rfl
    obtain ⟨hne, directory, r₀, p, hin, -⟩ := hallowed hask
    obtain ⟨f, hfree⟩ := Option.ne_none_iff_exists'.1 hne
    obtain ⟨name, hlets⟩ := letsCreate_of_asks hs hin hask
    obtain ⟨q, hq⟩ := hin.leads.standsFor
    obtain ⟨_, -, hto⟩ := hin.above
    obtain ⟨n, hn⟩ := hto.standsFor
    obtain ⟨r, w, hcall⟩ : ∃ r w, v.fatCreate stale path isDirectory = some (r, w) := by
      rcases fatCreate_cases isDirectory hs h.tree hlets hq hn hfree rfl with
        ⟨-, u, -, hview, heq⟩ | ⟨-, u, w, ch', ds, l, heq, -⟩
      · obtain ⟨w, hundo, -⟩ := h.undo (e := newEntry (subName name) (UInt16.ofNat f) isDirectory) hs hfree hview
          (toNat_ofNat_of_free hs hfree)
        exact ⟨_, w, heq.trans hundo⟩
      · exact ⟨_, w, heq⟩
    refine ⟨r, w, ?_⟩
    cases isDirectory <;> exact hcall
  | write q l parentDir offset buffer =>
    obtain ⟨hf, hroom, hret⟩ := hallowed
    obtain ⟨r, e, w, -, hwrite, -⟩ := h.write hs hf hroom hret
    refine ⟨r, w, ?_⟩
    simp only [perform, FileCall.call, hwrite, Option.bind_eq_bind, Option.bind_some]
  | truncate q l parentDir size =>
    obtain ⟨hf, hone⟩ := hallowed
    obtain ⟨r, file, w, -, htruncate, -⟩ := h.truncate hs hf size.toNat_lt fun hcut =>
      hone (UInt32.lt_iff_toNat_lt.2 hcut) _ (h.tree.owns _ (hf.node_file h.tree).1)
    refine ⟨r, w, ?_⟩
    simp only [perform, FileCall.call, htruncate, Option.bind_eq_bind, Option.bind_some]

private theorem Refines.run {trace : List (FileCall × Int)} (h : v.Refines ch σ) (hs : v.fs.Sound)
    (hrun : Run fileStep (fun v c => v.Allowed c.1) v trace w) :
    w.fs = v.fs ∧ ∃ ch' ops, History σ trace ops ∧ w.Refines ch' (σ.run 0 ops) := by
  induction hrun generalizing ch σ with
  | nil v => exact ⟨rfl, ch, [], .nil σ, h⟩
  | @cons v v' w c trace hallowed hstep _ ih =>
    obtain ⟨c, ret⟩ := c
    simp only [fileStep, Option.bind_eq_some_iff] at hstep
    obtain ⟨⟨r, w'⟩, hcall, hret⟩ := hstep
    split at hret
    · rename_i heq
      simp only at heq
      obtain rfl := heq
      obtain rfl := Option.some.inj hret
      obtain ⟨hfs, ch', ⟨hskip, href⟩ | ⟨op, hdoes, href⟩⟩ := h.step hs hallowed hcall
      · obtain ⟨hfs', ch'', ops, hops, href'⟩ := ih href (hfs ▸ hs)
        exact ⟨hfs'.trans hfs, ch'', ops, .skips hskip hops, href'⟩
      · obtain ⟨hfs', ch'', ops, hops, href'⟩ := ih href (hfs ▸ hs)
        exact ⟨hfs'.trans hfs, ch'', op :: ops, .does hdoes hops, href'⟩
    · cases hret

end Volume

end DBolOS.Fat
