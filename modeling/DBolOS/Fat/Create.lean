import DBolOS.Fat.Write
import DBolOS.Fat.Names

/-!
# Creating an entry

`fat_create` claims a free cluster, stores the record of the new entry in the first unused slot of its directory, or in a
new cluster behind the last one, and adds the aliases of a directory.  The tree gains one entry, and every other record and
every file are as they were (`Added`).
-/

namespace DBolOS.Fat

open ByteMem

namespace View

/-- The entry in slot `l` of the directory `q`, with the record `e` and the cluster `f`, is new, and the chain of `q` has
grown by `ds`. -/
structure Added (s s' : View) (ch ch' : Option Loc → List Nat) (q : Option Loc) (ds : List Nat) (l : Loc) (e : DirEntry)
    (f : Nat) : Prop where
  fs : s'.fs = s.fs
  tree : s'.Tree ch'
  node : ∀ n, Node s' n ↔ Node s n ∨ n = some l
  new : ¬ Node s (some l)
  chain : ∀ n, n ≠ some l → ch' n = Function.update ch q (ch q ++ ds) n
  own : ch' (some l) = [f]
  mem : l ∈ s.locs (ch q ++ ds)
  slot : s'.slot l = e
  free : l ∈ s.locs (ch q) → (s.slot l).unused
  keep : ∀ n, Node s n → ∀ l' ∈ s.locs (ch n), l' ≠ l → s'.slot l' = s.slot l'
  grown : ∀ l' ∈ s.locs ds, l' ≠ l → s'.slot l' = DirEntry.zero
  file : ∀ n, Node s n → (s.dirent n).isDirectory = false → ∀ c ∈ ch n, s'.data c = s.data c

variable {s s' : View} {ch ch' : Option Loc → List Nat} {q : Option Loc} {ds : List Nat} {l : Loc} {e : DirEntry} {f : Nat}

/-- The records of the entries that were there are the same. -/
theorem Added.dirent (h : s.Tree ch) (ha : s.Added s' ch ch' q ds l e f) {n : Option Loc} (hn : Node s n) :
    s'.dirent n = s.dirent n := by
  cases n with
  | none => rw [dirent_none, dirent_none, ha.fs]
  | some l' =>
    obtain ⟨p, hp, hl'⟩ := h.node_cases hn
    refine ha.keep p hp l' hl'.mem ?_
    rintro rfl
    exact ha.new hn

/-- Claiming a free cluster grows no chain. -/
theorem Tree.grown_claim (h : s.Tree ch) (hf : s.fat[f]? = some freeCluster) (q : Option Loc) :
    s.Grown (s.claim f) ch q [] := by
  obtain ⟨htree, hnode, hdirent⟩ := h.claim hf
  refine ⟨rfl, ?_, hnode, hdirent, ?_, by simp⟩
  · rwa [List.append_nil, Function.update_eq_self]
  · intro n hn c hc
    refine Function.update_of_ne ?_ _ _
    rintro rfl
    exact h.not_mem_of_free hn hf hc

/-- Hanging a free cluster behind the chain of an entry. -/
theorem Tree.grown_extend (h : s.Tree ch) {last g : Nat} (hq : Node s q) (hlast : (ch q).getLast? = some last)
    (hg : s.fat[g]? = some freeCluster) (hlt : g < 0xFFF8) : s.Grown (s.extend last g) ch q [g] := by
  obtain ⟨htree, hnode, hdirent⟩ := h.extend hq hlast hg hlt
  refine ⟨rfl, htree, hnode, hdirent, ?_, ?_⟩
  · intro n hn c hc
    refine Function.update_of_ne ?_ _ _
    rintro rfl
    exact h.not_mem_of_free hn hg hc
  · intro c hc
    rw [List.mem_singleton.1 hc]
    exact Function.update_self ..

private theorem Grown.trans_nil {s₁ : View} (h : s.Grown s₁ ch q []) (h' : s₁.Grown s' ch q ds) :
    s.Grown s' ch q ds where
  fs := h'.fs.trans h.fs
  tree := h'.tree
  node := fun n => (h'.node n).trans (h.node n)
  dirent := fun n hn => (h'.dirent n ((h.node n).2 hn)).trans (h.dirent n hn)
  data := fun n hn c hc => (h'.data n ((h.node n).2 hn) c hc).trans (h.data n hn c hc)
  fresh := by
    intro c hc
    rw [h'.fresh c hc, zeroes, zeroes, h.fs]

/-- A claimed cluster is a chain of its own. -/
theorem chain_claim (hf : s.fat[f]? = some freeCluster) : (s.claim f).Chain f [f] := by
  refine .last ⟨clusterChainEnd, ?_, by decide⟩
  exact List.getElem?_set_self (List.getElem?_eq_some_iff.1 hf).1

/-- Storing the record of a new entry, once its cluster is claimed and its directory has a slot for it. -/
private theorem Grown.added (hg : s.Grown s' ch q ds) (hs : s'.Sized) (hq : Node s q) (hdir : (s.dirent q).isDirectory)
    (hl : l ∈ s.locs (ch q ++ ds)) (hfree : l ∈ s.locs (ch q) → (s.slot l).unused) (he : e.isEntry)
    (hstart : e.startCluster.toNat = f) (hf : s'.Chain f [f])
    (hout : ∀ n, Node s n → f ∉ Function.update ch q (ch q ++ ds) n) (hzero : s'.data f = s.zeroes)
    (hsize : e.isDirectory = false → e.fileSize = 0) :
    s.Added (s'.putSlot l e) ch (Function.update (Function.update ch q (ch q ++ ds)) (some l) [f]) q ds l e f := by
  have hlocs : ∀ cs, s'.locs cs = s.locs cs := locs_congr hg.fs
  have hq' : Node s' q := (hg.node q).2 hq
  have hmem : l ∈ s'.locs (Function.update ch q (ch q ++ ds) q) := by
    rw [hlocs, Function.update_self]
    exact hl
  have hslot : ∀ n, Node s n → ∀ l' ∈ s.locs (ch n), s'.slot l' = s.slot l' := by
    intro n hn l' hl'
    rw [View.slot, View.slot, hg.data n hn l'.1 (mem_locs.1 hl').1]
  have hnew : ∀ l' ∈ s.locs ds, s'.slot l' = DirEntry.zero := by
    intro l' hl'
    rw [View.slot, hg.fresh l'.1 (mem_locs.1 hl').1]
    exact slotAt_replicate _ _
  have hunused : (s'.slot l).unused := by
    rw [locs_append, List.mem_append] at hl
    rcases hl with hl | hl
    · rw [hslot q hq l hl]
      exact hfree hl
    · rw [hnew l hl]
      exact zero_unused
  have hold : ¬ (s'.slot l).isEntry := not_isEntry_of_unused hunused
  have hnot : ¬ Node s (some l) := by
    intro hn
    obtain ⟨p, hp, hp'⟩ := hg.tree.node_cases ((hg.node _).2 hn)
    exact hold hp'.entry
  obtain ⟨htree, hnode, _⟩ := hg.tree.putSlot_new hs hq'
    (by rw [hg.dirent q hq]; exact hdir) hmem hold he (by rwa [hstart] : s'.Chain e.startCluster.toNat [f])
    (fun n hn => by rw [List.disjoint_singleton]; exact hout n ((hg.node n).1 hn))
    (fun hfile => by rw [hsize hfile]; exact Nat.zero_le _)
    (fun _ l' hl' => by
      rw [View.slot, List.mem_singleton.1 (mem_locs.1 hl').1, hzero]
      refine not_isEntry_of_unused ?_
      rw [zeroes, slotAt_replicate]
      exact zero_unused)
  obtain ⟨hself, hother, _⟩ := hg.tree.putSlot_facts hs e hq' hmem
  refine ⟨hg.fs, htree, fun n => ?_, hnot, fun n hn => Function.update_of_ne hn _ _, Function.update_self .., hl, hself,
    hfree, ?_, ?_, ?_⟩
  · rw [hnode n, hg.node n]
  · intro n hn l' hl' hne
    rw [hother l' hne, hslot n hn l' hl']
  · intro l' hl' hne
    rw [hother l' hne, hnew l' hl']
  · intro n hn hfile c hc
    have hnq : n ≠ q := by
      rintro rfl
      rw [hdir] at hfile
      cases hfile
    have hc' : c ∈ Function.update ch q (ch q ++ ds) n := by rwa [Function.update_of_ne hnq]
    rw [data_putSlot_of_ne e, hg.data n hn c hc]
    rintro rfl
    exact hg.tree.disjoint n q ((hg.node n).2 hn) hq' hnq hc' (mem_locs.1 hmem).1

/-- A record that is no entry in an unused slot of the new entry's own cluster. -/
theorem Added.putSlot (ha : s.Added s' ch ch' q ds l e f) (hs : s'.Sized) {i : Nat} {a : DirEntry}
    (hq : Node s q) (hi : i < s.fs.slotsPerCluster) (ha' : ¬ a.isEntry) (hold : ¬ (s'.slot (f, i)).isEntry) :
    s.Added (s'.putSlot (f, i) a) ch ch' q ds l e f := by
  have hl : Node s' (some l) := (ha.node _).2 (.inr rfl)
  have hmem : (f, i) ∈ s'.locs (ch' (some l)) := by
    rw [ha.own, mem_locs, ha.fs]
    exact ⟨List.mem_singleton.2 rfl, hi⟩
  obtain ⟨htree, hnode, _⟩ := ha.tree.putSlot_same (e := a) hs hl hmem (by simp only [ha', hold]) fun hn => by
    obtain ⟨p, hp, hp'⟩ := ha.tree.node_cases hn
    exact absurd hp'.entry hold
  obtain ⟨_, hother, _⟩ := ha.tree.putSlot_facts hs a hl hmem
  -- the cluster is in no chain but the new one
  have hout : ∀ n, Node s' n → n ≠ some l → f ∉ ch' n := by
    intro n hn hnl hf
    refine ha.tree.disjoint n (some l) hn hl hnl hf ?_
    rw [ha.own]
    exact List.mem_singleton.2 rfl
  have hne : ∀ n, Node s n → n ≠ some l := by
    rintro n hn rfl
    exact ha.new hn
  have hsub : ∀ n, Node s n → ∀ c ∈ ch n, c ∈ ch' n := by
    intro n hn c hc
    rw [ha.chain n (hne n hn)]
    by_cases hnq : n = q
    · rw [hnq, Function.update_self]
      exact List.mem_append_left _ (hnq ▸ hc)
    · rwa [Function.update_of_ne hnq]
  have hqf : ∀ l', l'.1 ∈ ch q ++ ds → l' ≠ (f, i) := by
    rintro l' hl' rfl
    refine hout q ((ha.node q).2 (.inl hq)) (hne q hq) ?_
    rw [ha.chain q (hne q hq), Function.update_self]
    exact hl'
  refine ⟨ha.fs, htree, fun n => (hnode n).trans (ha.node n), ha.new, ha.chain, ha.own, ha.mem, ?_, ha.free, ?_, ?_, ?_⟩
  · rw [hother l (hqf l (mem_locs.1 ha.mem).1), ha.slot]
  · intro n hn l' hl' hl''
    rw [hother l' ?_, ha.keep n hn l' hl' hl'']
    rintro rfl
    exact hout n ((ha.node n).2 (.inl hn)) (hne n hn) (hsub n hn f (mem_locs.1 hl').1)
  · intro l' hl' hl''
    rw [hother l' (hqf l' (List.mem_append_right _ (mem_locs.1 hl').1)), ha.grown l' hl' hl'']
  · intro n hn hfile c hc
    rw [data_putSlot_of_ne a, ha.file n hn hfile c hc]
    rintro (rfl : c = f)
    exact hout n ((ha.node n).2 (.inl hn)) (hne n hn) (hsub n hn c hc)

end View

namespace Volume

variable {v : Volume} {ch : Option Loc → List Nat} {q : Option Loc} {p e : DirEntry} {f : Nat}

theorem toNat_ofNat_of_free {f : Nat} (hs : v.fs.Sound) (hfree : v.fatFindFree = some f) :
    (UInt16.ofNat f).toNat = f := by
  have hlt := fatFindFree_lt hs hfree
  rw [UInt16.toNat_ofNat']
  omega

/-- `0xFFFF`, which stands for no free cluster, lies behind the end of the table. -/
theorem fatUpdateChain_outside (hs : v.fs.Sound) (n : Nat) : v.fatUpdateChain 65535 n = none := by
  have hout : v.fatTable[65535]? = none := by
    refine List.getElem?_eq_none ?_
    have hentries := hs.entries
    rw [v.fatTable_length]
    exact hentries.trans (by decide)
  simp [fatUpdateChain, walkFuel, lastOfChain, hout]

/-- Claiming a cluster and storing the record: it finds an unused slot or a second free cluster, or fails. -/
theorem fatAddDirEntry_added (hs : v.fs.Sound) (h : v.view.Tree ch) (hfree : v.fatFindFree = some f)
    (hq : View.Node v.view q) (hdir : (v.view.dirent q).isDirectory)
    (hp : p.startCluster = (v.view.dirent q).startCluster) (he : e.isEntry)
    (hstart : e.startCluster = UInt16.ofNat f) (hsize : e.isDirectory = false → e.fileSize = 0) :
    ∃ u, v.fatUpdateChain f f = some u ∧ u.view = v.view.claim f ∧
      (u.fatAddDirEntry p e = some (false, u) ∧ u.fatFindFree = none ∨
        ∃ w ch' ds l, u.fatAddDirEntry p e = some (true, w) ∧ v.view.Added w.view ch ch' q ds l e f ∧
          w.view.data f = v.view.zeroes) := by
  obtain ⟨hf, hflt⟩ := fatFindFree_eq_some hfree
  obtain ⟨u, hu, hview⟩ := fatUpdateChain_claim hs hf
  refine ⟨u, hu, hview, ?_⟩
  have hstart' : e.startCluster.toNat = f := by rw [hstart, toNat_ofNat_of_free hs hfree]
  have hclaim := h.grown_claim hf q
  have hfs : u.fs = v.fs := congrArg View.fs hview
  have hsu : u.fs.Sound := hfs ▸ hs
  have hsized : u.view.Sized := view_sized hsu
  have hin : ∀ n, View.Node v.view n → f ∉ ch n := fun n hn => h.not_mem_of_free hn hf
  have hchainf : u.view.Chain f [f] := by
    rw [hview]
    exact View.chain_claim hf
  have hzero : u.view.data f = v.view.zeroes := by
    rw [hview]
    exact Function.update_self ..
  rw [← hview] at hclaim
  have htree : u.view.Tree ch := by
    have := hclaim.tree
    rwa [List.append_nil, Function.update_eq_self] at this
  have hqu : View.Node u.view q := (hclaim.node q).2 hq
  have hchain : u.view.Chain p.startCluster.toNat (ch q) := by
    have := htree.owns q hqu
    rwa [View.Owns, hclaim.dirent q hq, ← hp] at this
  obtain ⟨last, hlast⟩ := Option.ne_none_iff_exists'.1 fun h0 => hchain.ne_nil (List.getLast?_eq_none_iff.1 h0)
  have hadd := @fatAddDirEntry_spec u p e _ _ hsu hchain hlast
  cases hslot : u.firstSlot (ch q) DirEntry.unused with
  | some l =>
    rw [hslot] at hadd
    obtain ⟨w, hw, hwview⟩ := hadd
    obtain ⟨hc, hi, hunused⟩ := firstSlot_eq_some hslot
    have hl : l ∈ v.view.locs (ch q) := View.mem_locs.2 ⟨hc, by rw [view_fs, ← hfs]; exact hi⟩
    have hold : (v.view.slot l).unused := by
      rwa [View.slot, hclaim.data q hq l.1 hc] at hunused
    have hadded := hclaim.added hsized hq hdir (by rwa [List.append_nil]) (fun _ => hold) he hstart' hchainf
      (fun n hn => by rw [List.append_nil, Function.update_eq_self]; exact hin n hn) hzero hsize
    rw [← hwview] at hadded
    refine .inr ⟨w, _, _, l, hw, hadded, ?_⟩
    rw [hwview, View.data_putSlot_of_ne, hzero]
    rintro rfl
    exact hin q hq hc
  | none =>
    rw [hslot] at hadd
    cases hg : u.fatFindFree with
    | none =>
      rw [hg] at hadd
      exact .inl ⟨hadd, rfl⟩
    | some g =>
      rw [hg] at hadd
      obtain ⟨w, hw, hwview⟩ := hadd
      obtain ⟨hgfree, hglt⟩ := fatFindFree_eq_some hg
      have hgf : g ≠ f := by
        rintro rfl
        exact View.Chain.getElem? hchainf (List.mem_singleton.2 rfl) |>.elim fun x hx =>
          hx.2 (Option.some.inj (hx.1.symm.trans hgfree))
      have hgrown := hclaim.trans_nil (htree.grown_extend hqu hlast hgfree (fatFindFree_lt hsu hg))
      have hlastf : last ≠ f := by
        rintro rfl
        exact hin q hq (List.mem_of_getLast? hlast)
      have hkeep := (View.getElem?_extend (Ne.symm (fun hgl => htree.not_mem_of_free hqu hgfree
        (hgl ▸ List.mem_of_getLast? hlast) : g ≠ last)) (htree.lt_length hqu (List.mem_of_getLast? hlast)) hglt).2.2
      have hl : (g, 0) ∈ v.view.locs (ch q ++ [g]) := by
        refine View.mem_locs.2 ⟨by simp, ?_⟩
        rw [view_fs, View.slotsPerCluster_eq hs]
        have := hs.cluster
        omega
      have hadded := hgrown.added (e := e) (l := (g, 0)) ((hsized).extend last g) hq hdir hl ?_ he hstart' ?_ ?_ ?_ hsize
      · rw [← hwview] at hadded
        refine .inr ⟨w, _, _, _, hw, hadded, ?_⟩
        rw [hwview, View.data_putSlot_of_ne _ (Ne.symm hgf : f ≠ (g, 0).1)]
        exact (Function.update_of_ne (Ne.symm hgf) _ _).trans hzero
      · intro hmem
        exact absurd (View.mem_locs.1 hmem).1 (fun hc => htree.not_mem_of_free hqu hgfree hc)
      · refine View.Chain.congr hchainf fun c hc => ?_
        rw [List.mem_singleton.1 hc]
        exact hkeep f (Ne.symm hlastf) (Ne.symm hgf)
      · intro n hn
        by_cases hnq : n = q
        · rw [hnq, Function.update_self, List.mem_append, not_or, List.mem_singleton]
          exact ⟨hin q hq, Ne.symm hgf⟩
        · rw [Function.update_of_ne hnq]
          exact hin n hn
      · exact (Function.update_of_ne (Ne.symm hgf) _ _).trans hzero

end Volume

end DBolOS.Fat
