import DBolOS.Fat.Files

/-!
# Writing a file

`fat_write` grows the file to the size it needs, stores the new size in the directory and copies the bytes.  Each of
these changes one file and leaves every other entry, its record and its contents alone (`FileChange`).
-/

namespace DBolOS.Fat

open ByteMem

namespace View

/-- The volume after a change to the file of slot `l`: its record, its chain and its contents. -/
structure FileChange (s s' : View) (ch ch' : Option Loc → List Nat) (l : Loc) : Prop where
  fs : s'.fs = s.fs
  tree : s'.Tree ch'
  node : ∀ n, Node s' n ↔ Node s n
  chain : ∀ n, n ≠ some l → ch' n = ch n
  dir : ∀ q, Node s q → (s.dirent q).isDirectory → ∀ l' ∈ s.locs (ch q), l' ≠ l → s'.slot l' = s.slot l'
  file : ∀ n, Node s n → n ≠ some l → (s.dirent n).isDirectory = false → ∀ c ∈ ch n, s'.data c = s.data c
  kind : (s'.slot l).isDirectory = false

variable {s s' s'' : View} {ch ch' ch'' : Option Loc → List Nat} {l : Loc}

theorem locs_congr (hfs : s'.fs = s.fs) (cs : List Nat) : s'.locs cs = s.locs cs := by
  unfold locs
  rw [hfs]

/-- The records of the other entries are the same. -/
theorem FileChange.dirent (h : s.Tree ch) (hc : s.FileChange s' ch ch' l) {n : Option Loc} (hn : Node s n)
    (hnl : n ≠ some l) : s'.dirent n = s.dirent n := by
  cases n with
  | none => rw [dirent_none, dirent_none, hc.fs]
  | some l' =>
    obtain ⟨q, hq, hl'⟩ := h.node_cases hn
    exact hc.dir q hq hl'.dir l' hl'.mem fun heq => hnl (by rw [heq])

theorem FileChange.refl (h : s.Tree ch) (hkind : (s.slot l).isDirectory = false) : s.FileChange s ch ch l :=
  ⟨rfl, h, fun _ => Iff.rfl, fun _ _ => rfl, fun _ _ _ _ _ _ => rfl, fun _ _ _ _ _ _ => rfl, hkind⟩

theorem FileChange.trans (h : s.Tree ch) (hkind : (s.slot l).isDirectory = false) (h₁ : s.FileChange s' ch ch' l)
    (h₂ : s'.FileChange s'' ch' ch'' l) : s.FileChange s'' ch ch'' l := by
  refine ⟨h₂.fs.trans h₁.fs, h₂.tree, fun n => (h₂.node n).trans (h₁.node n),
    fun n hn => (h₂.chain n hn).trans (h₁.chain n hn), ?_, ?_, h₂.kind⟩
  · intro q hq hdir l' hl' hne
    have hql : q ≠ some l := by
      rintro rfl
      rw [dirent_some, hkind] at hdir
      cases hdir
    rw [← h₁.dir q hq hdir l' hl' hne]
    refine h₂.dir q ((h₁.node q).2 hq) (by rwa [h₁.dirent h hq hql]) l' ?_ hne
    rwa [h₁.chain q hql, locs_congr h₁.fs]
  · intro n hn hnl hfile c hc
    rw [← h₁.file n hn hnl hfile c hc]
    refine h₂.file n ((h₁.node n).2 hn) hnl (by rwa [h₁.dirent h hn hnl]) c ?_
    rwa [h₁.chain n hnl]

/-- The parts of a change: the clusters of the file itself are written. -/
theorem FileChange.of_contents (h : s.Tree ch) (hl : Node s (some l)) (hkind : (s.slot l).isDirectory = false)
    (hfs : s'.fs = s.fs) (hfat : s'.fat = s.fat) (hdata : ∀ c, c ∉ ch (some l) → s'.data c = s.data c) :
    s.FileChange s' ch ch l := by
  have hkeep : ∀ n, Node s n → n ≠ some l → ∀ c ∈ ch n, s'.data c = s.data c :=
    fun n hn hnl c hc => hdata c (h.disjoint n _ hn hl hnl hc)
  have hdirne : ∀ q, (s.dirent q).isDirectory → q ≠ some l := by
    rintro q hq rfl
    rw [dirent_some, hkind] at hq
    cases hq
  obtain ⟨htree, hnode, hdirent⟩ := h.frame hfs (fun i _ => by rw [hfat]) (fun n _ c _ => by rw [hfat])
    (fun q hq hdir => hkeep q hq (hdirne q hdir))
  refine ⟨hfs, htree, hnode, fun _ _ => rfl, ?_, fun n hn hnl _ => hkeep n hn hnl, ?_⟩
  · intro q hq hdir l' hl' _
    rw [slot, slot, hkeep q hq (hdirne q hdir) l'.1 (mem_locs.1 hl').1]
  · have := hdirent _ hl
    rw [dirent_some, dirent_some] at this
    rw [this, hkind]

/-- The record of the file is replaced. -/
theorem FileChange.of_record (h : s.Tree ch) (hs : s.Sized) {q : Option Loc} {e : DirEntry} (hq : Node s q)
    (hdir : (s.dirent q).isDirectory) (hl : l ∈ s.locs (ch q)) (hentry : e.isEntry = (s.slot l).isEntry)
    (hkind : (s.slot l).isDirectory = false) (hstart : e.startCluster = (s.slot l).startCluster)
    (hfile : e.isDirectory = false) (hcapacity : e.fileSize.toNat ≤ (ch (some l)).length * s.fs.bytesPerCluster) :
    s.FileChange (s.putSlot l e) ch ch l ∧ (s.putSlot l e).slot l = e := by
  obtain ⟨htree, hnode, _⟩ := h.putSlot_same hs hq hl hentry fun _ =>
    ⟨hstart, by rw [hfile, hkind], fun _ => hcapacity⟩
  obtain ⟨hself, hother, _⟩ := h.putSlot_facts hs e hq hl
  refine ⟨⟨rfl, htree, hnode, fun _ _ => rfl, fun _ _ _ l' _ hne => hother l' hne, ?_, by rw [hself, hfile]⟩, hself⟩
  intro n hn _ hnfile c hc
  refine data_putSlot_of_ne e ?_
  rintro rfl
  have hnq : n ≠ q := by
    rintro rfl
    rw [hdir] at hnfile
    cases hnfile
  exact h.disjoint n q hn hq hnq hc (mem_locs.1 hl).1

end View

/-! ### Growing a chain -/

/-- The chain of `n` has grown by the clusters `ds`. -/
structure View.Grown (s s' : View) (ch : Option Loc → List Nat) (n : Option Loc) (ds : List Nat) : Prop where
  fs : s'.fs = s.fs
  tree : s'.Tree (Function.update ch n (ch n ++ ds))
  node : ∀ m, View.Node s' m ↔ View.Node s m
  dirent : ∀ m, View.Node s m → s'.dirent m = s.dirent m
  data : ∀ m, View.Node s m → ∀ c ∈ ch m, s'.data c = s.data c
  fresh : ∀ c ∈ ds, s'.data c = s.zeroes

namespace Volume

variable {v : Volume} {ch : Option Loc → List Nat} {n : Option Loc} {l : Loc}

theorem fatFindFree_lt {f : Nat} (hs : v.fs.Sound) (h : v.fatFindFree = some f) : f < 0xFFF8 := by
  have hlt := (fatFindFree_eq_some h).2
  rw [v.fatTable_length] at hlt
  exact hlt.trans_le hs.entries

/-- The chain of an entry grows by as many clusters as asked for, or until the free ones run out. -/
theorem fatAllocateSpace_spec (amount : Nat) {e : DirEntry} (hs : v.fs.Sound) (h : v.view.Tree ch)
    (hn : View.Node v.view n) (hstart : e.startCluster = (v.view.dirent n).startCluster) :
    ∃ b w ds, fatAllocateSpace amount v e = some (b, w) ∧ v.view.Grown w.view ch n ds ∧
      (b = true → ds.length = amount) := by
  induction amount generalizing v ch with
  | zero =>
    refine ⟨true, v, [], rfl, ⟨rfl, ?_, fun _ => Iff.rfl, fun _ _ => rfl, fun _ _ _ _ => rfl, by simp⟩, fun _ => rfl⟩
    rw [List.append_nil, Function.update_eq_self]
    exact h
  | succ amount ih =>
    cases hfree : v.fatFindFree with
    | none =>
      refine ⟨false, v, [], by simp [fatAllocateSpace, hfree], ⟨rfl, ?_, fun _ => Iff.rfl, fun _ _ => rfl,
        fun _ _ _ _ => rfl, by simp⟩, by simp⟩
      rw [List.append_nil, Function.update_eq_self]
      exact h
    | some f =>
      obtain ⟨hf, hflt⟩ := fatFindFree_eq_some hfree
      have hchain := h.owns n hn
      rw [View.Owns, ← hstart] at hchain
      obtain ⟨last, hlast⟩ := Option.ne_none_iff_exists'.1 fun h0 => hchain.ne_nil (List.getLast?_eq_none_iff.1 h0)
      obtain ⟨u, hu, hview⟩ := fatUpdateChain_spec hs hchain hlast hflt
      obtain ⟨htree, hnode, hdirent⟩ := h.extend hn hlast hf (fatFindFree_lt hs hfree)
      rw [← hview] at htree hnode hdirent
      have hfs : u.fs = v.fs := congrArg View.fs hview
      have hdata : ∀ m, View.Node v.view m → ∀ c ∈ ch m, u.view.data c = v.view.data c := by
        intro m hm c hc
        rw [hview]
        refine Function.update_of_ne ?_ _ _
        rintro rfl
        exact h.not_mem_of_free hm hf hc
      have hstart' : e.startCluster = (u.view.dirent n).startCluster := by rw [hdirent n hn, hstart]
      obtain ⟨b, w, ds, hw, hgrown, hlen⟩ := ih (hfs ▸ hs) htree ((hnode n).2 hn) hstart'
      refine ⟨b, w, f :: ds, ?_, ⟨hgrown.fs.trans hfs, ?_, fun m => (hgrown.node m).trans (hnode m), ?_, ?_, ?_⟩, ?_⟩
      · simp only [fatAllocateSpace, hfree, hu, Option.bind_eq_bind, Option.bind_some, hw]
      · have := hgrown.tree
        rwa [Function.update_idem, Function.update_self, List.append_assoc] at this
      · intro m hm
        rw [hgrown.dirent m ((hnode m).2 hm), hdirent m hm]
      · intro m hm c hc
        rw [← hdata m hm c hc]
        refine hgrown.data m ((hnode m).2 hm) c ?_
        by_cases hmn : m = n
        · subst hmn
          rw [Function.update_self]
          exact List.mem_append_left _ hc
        · rwa [Function.update_of_ne hmn]
      · have hzeroes : u.view.zeroes = v.view.zeroes := by rw [View.zeroes, View.zeroes, view_fs, hfs, view_fs]
        intro c hc
        rcases List.mem_cons.1 hc with hcf | hc
        · -- the new cluster is one of the chain when the next ones are hung behind it
          have hf' : f ∈ Function.update ch n (ch n ++ [f]) n := by
            rw [Function.update_self]
            exact List.mem_append_right _ (List.mem_singleton.2 rfl)
          rw [hcf, hgrown.data n ((hnode n).2 hn) f hf', hview]
          exact Function.update_self ..
        · rw [← hzeroes]
          exact hgrown.fresh c hc
      · intro hb
        rw [List.length_cons, hlen hb]

end Volume

/-- Growing the chain of a file. -/
theorem View.Grown.fileChange {s s' : View} {ch : Option Loc → List Nat} {l : Loc} {ds : List Nat}
    (hg : s.Grown s' ch (some l) ds) (hl : View.Node s (some l)) (hkind : (s.slot l).isDirectory = false) :
    s.FileChange s' ch (Function.update ch (some l) (ch (some l) ++ ds)) l := by
  refine ⟨hg.fs, hg.tree, hg.node, fun n hn => Function.update_of_ne hn _ _, ?_, fun n hn _ _ => hg.data n hn, ?_⟩
  · intro q hq _ l' hl' _
    rw [View.slot, View.slot, hg.data q hq l'.1 (View.mem_locs.1 hl').1]
  · have := hg.dirent _ hl
    rw [View.dirent_some, View.dirent_some] at this
    rw [this, hkind]

/-! ### Storing the new size -/

/-- The test of `fat_update_dir_entry` on the record `r`, with the bytes of `e` as the name. -/
def DirEntry.sameString (e r : DirEntry) : Bool := decide (cstr r.toBytes = cstr e.toBytes)

/-- Looking the bytes of `e` up among the slots of `cs` finds no slot but `l`, and compares no record with itself that
holds no terminator. -/
structure View.Finds (s : View) (cs : List Nat) (l : Loc) (e : DirEntry) : Prop where
  defined : ∀ l' ∈ s.locs cs, s.slot l' ≠ e ∨ 0 ∈ (s.slot l').toBytes
  only : ∀ l', (s.locs cs).find? (fun l' => e.sameString (s.slot l')) = some l' → l' = l

theorem View.Finds.congr {s s' : View} {cs : List Nat} {l : Loc} {e : DirEntry} (h : s.Finds cs l e)
    (hfs : s'.fs = s.fs) (hdata : ∀ c ∈ cs, s'.data c = s.data c) : s'.Finds cs l e := by
  have hslot : ∀ l' ∈ s.locs cs, s'.slot l' = s.slot l' := by
    intro l' hl'
    rw [View.slot, View.slot, hdata l'.1 (View.mem_locs.1 hl').1]
  have hlocs := View.locs_congr hfs cs
  constructor
  · intro l' hl'
    rw [hlocs] at hl'
    rw [hslot l' hl']
    exact h.defined l' hl'
  · intro l' hl'
    refine h.only l' ?_
    rw [hlocs] at hl'
    rw [← hl']
    exact List.find?_congr fun x hx => by rw [hslot x hx]

private theorem DirEntry.toBytes_injective {e r : DirEntry} (h : e.toBytes = r.toBytes) : e = r := by
  rw [← ofBytes_toBytes e, h, ofBytes_toBytes]

/-- The record with its size set to `size`. -/
def DirEntry.resize (e : DirEntry) (size : Nat) : DirEntry := { e with fileSize := UInt32.ofNat size }

namespace Volume

variable {v : Volume} {ch : Option Loc → List Nat} {l : Loc}

theorem nameEquals_toBytes {e r : DirEntry} (h : r ≠ e ∨ 0 ∈ r.toBytes) :
    nameEquals e.toBytes r = some (e.sameString r) := by
  have hne : r.toBytes ≠ e.toBytes ∨ 0 ∈ r.toBytes := h.imp_left fun hne heq => hne (DirEntry.toBytes_injective heq)
  obtain ⟨x, hx, hiff⟩ := strcmp_eq_zero_iff (by simp) hne
  rw [nameEquals, hx, DirEntry.sameString, ← decide_eq_decide.2 hiff]
  rfl

/-- The new size is stored in the slot of the file, or no slot is found. -/
theorem updateFileSize_spec (file : FileData) {size : Nat} {cs : List Nat} (hs : v.fs.Sound)
    (h : v.view.Chain file.parentEntry.startCluster.toNat cs)
    (hfinds : v.view.Finds cs l (file.fileEntry.resize size)) :
    v.updateFileSize file size = some (-1, ⟨file.fileEntry.resize size, file.parentEntry⟩, v) ∨
      ∃ w, v.updateFileSize file size = some (0, ⟨file.fileEntry.resize size, file.parentEntry⟩, w) ∧
        w.view = v.view.putSlot l (file.fileEntry.resize size) := by
  have hupdate := fatUpdateDirEntry_spec (p := (file.fileEntry.resize size).sameString)
    (file.fileEntry.resize size) hs h fun l' hl' => nameEquals_toBytes (hfinds.defined l' hl')
  unfold updateFileSize
  cases hfirst : v.firstSlot cs (file.fileEntry.resize size).sameString with
  | none =>
    rw [hfirst] at hupdate
    simp only at hupdate
    left
    simp only [DirEntry.resize, Option.bind_eq_bind] at hupdate ⊢
    rw [hupdate]
    rfl
  | some l' =>
    obtain rfl : l' = l := hfinds.only l' hfirst
    rw [hfirst] at hupdate
    obtain ⟨w, hw, hview⟩ := hupdate
    right
    refine ⟨w, ?_, hview⟩
    simp only [DirEntry.resize, Option.bind_eq_bind] at hw ⊢
    rw [hw]
    rfl

/-- A write of no bytes at an offset inside the chain does nothing. -/
private theorem fatWriteWith_nil (truncate : Volume → FileData → Nat → Option (Int × FileData × Volume)) {e : DirEntry}
    (p : DirEntry) {cs : List Nat} {offset : Nat} (hs : v.fs.Sound) (h : v.view.Chain e.startCluster.toNat cs)
    (hfile : e.isDirectory = false) (hsize : offset ≤ e.fileSize.toNat)
    (hoffset : offset / v.fs.bytesPerCluster < cs.length) :
    v.fatWriteWith truncate e p offset [] = some (0, e, v) := by
  have hpos : v.fs.bytesPerCluster ≠ 0 := (View.bytesPerCluster_pos (view_sized hs)).ne'
  have hlt := e.fileSize.toNat_lt
  have hsame : ¬ e.fileSize.toNat < (offset + ([] : List UInt8).length) % 2 ^ 32 := by
    rw [List.length_nil, Nat.add_zero, Nat.mod_eq_of_lt (by omega)]
    omega
  have hseek := writeSeek_spec hs h hoffset
  rw [List.getElem?_eq_getElem hoffset] at hseek
  simp only [fatWriteWith, hfile, Bool.false_eq_true, ↓reduceIte, hpos, ensureSize, hsame, Option.bind_eq_bind,
    Option.bind_some, ne_eq, not_true_eq_false, hseek]
  rfl

private theorem length_lt_of_tree {s : View} {n : Option Loc} (h : s.Tree ch) (hs : s.Sized) (hn : View.Node s n) :
    (ch n).length ≤ 0xFFF8 := by
  have := View.Chain.length_le (h.owns n hn)
  rw [hs.table] at this
  exact this.trans hs.sound.entries

/-- The difference of two cluster counts in 32 bits, added to the first one: a chain longer than the new size asks for
makes it wrap around to more clusters than the table holds. -/
private theorem grow_amount {k n d : Nat} (hn : 1 ≤ n) (hk : k < 2 ^ 32) (hd : d = (k + 1 + 2 ^ 32 - n) % 2 ^ 32)
    (h : n + d ≤ 0xFFF8) : n + d = k + 1 := by
  omega

private theorem updateFileSize_resize {file : FileData} {size : Nat} :
    v.updateFileSize ⟨file.fileEntry.resize size, file.parentEntry⟩ size = v.updateFileSize file size := rfl

/-- Growing a file whose chain could be extended stores the new size. -/
private theorem truncateGrow_of_allocated {w : Volume} (file : FileData) {size : Nat} {cs ds : List Nat}
    (hs : w.fs.Sound)
    (hfs : w.fs = v.fs) (hchain : v.view.Chain file.fileEntry.startCluster.toNat cs)
    (hchain' : w.view.Chain file.fileEntry.startCluster.toNat ds) (hfile : file.fileEntry.isDirectory = false)
    (hsize : size < 2 ^ 32)
    (halloc : fatAllocateSpace ((size / v.fs.bytesPerCluster + 1 + 2 ^ 32 - cs.length) % 2 ^ 32) v file.fileEntry =
      some (true, w)) (hcount : ds.length = size / v.fs.bytesPerCluster + 1) :
    v.truncateGrow file size = w.updateFileSize file size := by
  have hpos : v.fs.bytesPerCluster ≠ 0 := hfs ▸ (View.bytesPerCluster_pos (view_sized hs)).ne'
  have hnat : (UInt32.ofNat size).toNat = size := by
    rw [UInt32.toNat_ofNat', Nat.mod_eq_of_lt hsize]
  have hwrite := fatWriteWith_nil (e := file.fileEntry.resize size) (fun _ _ _ => none) file.parentEntry hs hchain'
    hfile (by rw [DirEntry.resize, hnat] : size ≤ _) (by rw [hfs, hcount]; omega)
  simp only [DirEntry.resize] at hwrite
  rw [truncateGrow, fatGetClusterAmount_spec hchain, Option.bind_eq_bind, Option.bind_some, if_neg hpos]
  simp only [halloc, Option.bind_eq_bind, Option.bind_some, hnat, Nat.sub_self, List.replicate_zero, hwrite]
  exact updateFileSize_resize

/-- Growing a file extends its chain to the clusters of the new size, or fails when the free clusters run out. -/
theorem truncateGrow_spec (file : FileData) {size : Nat} (hs : v.fs.Sound) (h : v.view.Tree ch)
    (hl : View.Node v.view (some l)) (he : file.fileEntry = v.view.slot l) (hfile : file.fileEntry.isDirectory = false)
    (hsize : size < 2 ^ 32) :
    ∃ b w ds, fatAllocateSpace ((size / v.fs.bytesPerCluster + 1 + 2 ^ 32 - (ch (some l)).length) % 2 ^ 32) v
        file.fileEntry = some (b, w) ∧ v.view.Grown w.view ch (some l) ds ∧
      (b = false ∧ v.truncateGrow file size = some (-1, file, w) ∨
        b = true ∧ (ch (some l) ++ ds).length = size / v.fs.bytesPerCluster + 1 ∧
          v.truncateGrow file size = w.updateFileSize file size) := by
  have hpos : v.fs.bytesPerCluster ≠ 0 := (View.bytesPerCluster_pos (view_sized hs)).ne'
  have hchain : v.view.Chain file.fileEntry.startCluster.toNat (ch (some l)) := by
    rw [he]
    exact h.owns _ hl
  obtain ⟨amount, hamount⟩ : ∃ d, d = (size / v.fs.bytesPerCluster + 1 + 2 ^ 32 - (ch (some l)).length) % 2 ^ 32 :=
    ⟨_, rfl⟩
  obtain ⟨b, w, ds, halloc, hgrown, hlen⟩ := fatAllocateSpace_spec amount hs h hl (congrArg DirEntry.startCluster he)
  have hfs : w.fs = v.fs := hgrown.fs
  have hws : w.fs.Sound := hfs ▸ hs
  refine ⟨b, w, ds, hamount ▸ halloc, hgrown, ?_⟩
  cases b with
  | false =>
    refine .inl ⟨rfl, ?_⟩
    rw [truncateGrow, fatGetClusterAmount_spec hchain, Option.bind_eq_bind, Option.bind_some, if_neg hpos]
    simp only [← hamount, halloc, Option.bind_eq_bind, Option.bind_some]
  | true =>
    have hnew := length_lt_of_tree hgrown.tree (view_sized hws) ((hgrown.node _).2 hl)
    rw [Function.update_self, List.length_append] at hnew
    have hcount : (ch (some l) ++ ds).length = size / v.fs.bytesPerCluster + 1 := by
      rw [List.length_append]
      exact grow_amount hchain.length_pos ((Nat.div_le_self _ _).trans_lt hsize) ((hlen rfl).trans hamount) hnew
    have hchain' : w.view.Chain file.fileEntry.startCluster.toNat (ch (some l) ++ ds) := by
      have := hgrown.tree.owns _ ((hgrown.node _).2 hl)
      rwa [View.Owns, hgrown.dirent _ hl, Function.update_self, View.dirent_some, ← he] at this
    exact .inr ⟨rfl, hcount, truncateGrow_of_allocated file hws hfs hchain hchain' hfile hsize (hamount ▸ halloc) hcount⟩

theorem resize_self (e : DirEntry) {size : Nat} (h : size = e.fileSize.toNat) : e.resize size = e := by
  rw [h, DirEntry.resize, UInt32.ofNat_toNat]

theorem toNat_resize {e : DirEntry} {size : Nat} (h : size < 2 ^ 32) : (e.resize size).fileSize.toNat = size := by
  rw [DirEntry.resize, UInt32.toNat_ofNat', Nat.mod_eq_of_lt h]

section

variable {e p : DirEntry} {q : Option Loc} {size : Nat}

/-- Growing a file: the record in the directory and `*file` get the new size, and the contents grow at their end. -/
theorem fatTruncate_grow_spec (hs : v.fs.Sound) (h : v.view.Tree ch) (hl : View.Node v.view (some l))
    (he : v.view.slot l = e) (hfile : e.isDirectory = false) (hq : View.Node v.view q)
    (hdir : (v.view.dirent q).isDirectory) (hmem : l ∈ v.view.locs (ch q))
    (hp : p.startCluster = (v.view.dirent q).startCluster) (hsize : size < 2 ^ 32) (hgrow : e.fileSize.toNat < size)
    (hfinds : v.view.Finds (ch q) l (e.resize size)) :
    ∃ r e' w ch', v.fatTruncate ⟨e, p⟩ size = some (r, ⟨e', p⟩, w) ∧ v.view.FileChange w.view ch ch' l ∧
      (r = -1 ∨ r = 0 ∧ e' = e.resize size ∧ w.view.slot l = e' ∧
        (∃ extra, (∀ b ∈ extra, b = 0) ∧ w.view.bytes (ch' (some l)) = v.view.bytes (ch (some l)) ++ extra) ∧
        (ch' (some l)).length = size / v.fs.bytesPerCluster + 1) := by
  have hkind : (v.view.slot l).isDirectory = false := by rw [he, hfile]
  have hql : q ≠ some l := by
    rintro rfl
    rw [View.dirent_some, hkind] at hdir
    cases hdir
  obtain ⟨b, u, ds, -, hgrown, hcases⟩ := truncateGrow_spec ⟨e, p⟩ hs h hl he.symm hfile hsize
  have hchange := hgrown.fileChange hl hkind
  have htruncate : v.fatTruncate ⟨e, p⟩ size = v.truncateGrow ⟨e, p⟩ size := by
    rw [fatTruncate, if_neg (by simp [hfile]), if_neg (Nat.not_lt.2 hgrow.le), if_pos hgrow]
  have hfs : u.fs = v.fs := hgrown.fs
  rcases hcases with ⟨-, hfail⟩ | ⟨-, hcount, hupdate⟩
  · exact ⟨-1, e, u, _, htruncate.trans hfail, hchange, .inl rfl⟩
  have hqu : u.view.Chain p.startCluster.toNat (ch q) := by
    have := hgrown.tree.owns q ((hgrown.node q).2 hq)
    rwa [View.Owns, hgrown.dirent q hq, Function.update_of_ne hql, ← hp] at this
  have hfinds' : u.view.Finds (ch q) l (e.resize size) := hfinds.congr hfs fun c hc => hgrown.data q hq c hc
  rcases updateFileSize_spec ⟨e, p⟩ (hfs ▸ hs) hqu hfinds' with hfail | ⟨w, hw, hview⟩
  · exact ⟨-1, _, u, _, htruncate.trans (hupdate.trans hfail), hchange, .inl rfl⟩
  have hslot : u.view.slot l = e := by
    have := hgrown.dirent _ hl
    rwa [View.dirent_some, View.dirent_some, he] at this
  have hroom : size ≤ (Function.update ch (some l) (ch (some l) ++ ds) (some l)).length * u.fs.bytesPerCluster := by
    rw [Function.update_self, hcount, hfs, Nat.succ_mul]
    have h1 := Nat.div_add_mod size v.fs.bytesPerCluster
    have h2 : size % v.fs.bytesPerCluster < v.fs.bytesPerCluster :=
      Nat.mod_lt size (View.bytesPerCluster_pos (view_sized hs))
    rw [Nat.mul_comm] at h1
    omega
  obtain ⟨hrecord, hself⟩ := View.FileChange.of_record (e := e.resize size) hgrown.tree (view_sized (hfs ▸ hs))
    ((hgrown.node q).2 hq) (by rw [hgrown.dirent q hq]; exact hdir)
    (by rwa [Function.update_of_ne hql, View.locs_congr (show u.view.fs = v.view.fs from hfs)] : l ∈ u.view.locs _)
    (by rw [hslot]; rfl) (by rw [hslot, hfile]) (by rw [hslot]; rfl) hfile
    (by rw [toNat_resize hsize]; exact hroom)
  rw [← hview] at hrecord hself
  refine ⟨0, _, w, _, htruncate.trans (hupdate.trans hw), hchange.trans h hkind hrecord,
    .inr ⟨rfl, rfl, hself, ?_, ?_⟩⟩
  · -- the record lies in a cluster of the directory, so the contents are those after growing
    have hkeep : ∀ c ∈ ch (some l) ++ ds, w.view.data c = u.view.data c := by
      intro c hc
      rw [hview]
      refine View.data_putSlot_of_ne _ ?_
      rintro rfl
      refine hgrown.tree.disjoint (some l) q ((hgrown.node _).2 hl) ((hgrown.node q).2 hq) (Ne.symm hql) (?_ : l.1 ∈ _) ?_
      · rwa [Function.update_self]
      · rw [Function.update_of_ne hql]
        exact (View.mem_locs.1 hmem).1
    refine ⟨u.view.bytes ds, ?_, ?_⟩
    · intro b hb
      obtain ⟨c, hc, hb⟩ := List.mem_flatMap.1 hb
      rw [hgrown.fresh c hc] at hb
      exact List.eq_of_mem_replicate hb
    rw [Function.update_self, View.bytes_congr hkeep, View.bytes, List.flatMap_append]
    congr 1
    exact View.bytes_congr fun c hc => hgrown.data _ hl c hc
  · rw [Function.update_self, hcount]

/-- `fat_write` fails, or stores the size that it needs and overwrites a piece of the contents, grown at their end when
that is larger than before. -/
theorem fatWrite_spec {offset : Nat} {bs : List UInt8} (hs : v.fs.Sound) (h : v.view.Tree ch)
    (hl : View.Node v.view (some l)) (he : v.view.slot l = e) (hfile : e.isDirectory = false)
    (hq : View.Node v.view q) (hdir : (v.view.dirent q).isDirectory) (hmem : l ∈ v.view.locs (ch q))
    (hp : p.startCluster = (v.view.dirent q).startCluster) (hsize : offset + bs.length < 2 ^ 32)
    (hfinds : e.fileSize.toNat < offset + bs.length → v.view.Finds (ch q) l (e.resize (offset + bs.length))) :
    ∃ r e' w ch', v.fatWrite e p offset bs = some (r, e', w) ∧ v.view.FileChange w.view ch ch' l ∧
      (r = -1 ∨ r = Int.bmod bs.length (2 ^ 32) ∧ e' = e.resize (max e.fileSize.toNat (offset + bs.length)) ∧
        w.view.slot l = e' ∧
        ∃ extra, (∀ b ∈ extra, b = 0) ∧ offset + bs.length ≤ (v.view.bytes (ch (some l)) ++ extra).length ∧
          w.view.bytes (ch' (some l)) = splice (v.view.bytes (ch (some l)) ++ extra) offset bs) := by
  have hkind : (v.view.slot l).isDirectory = false := by rw [he, hfile]
  have hpos : 0 < v.fs.bytesPerCluster := View.bytesPerCluster_pos (view_sized hs)
  have hcapacity : e.fileSize.toNat ≤ (ch (some l)).length * v.fs.bytesPerCluster := by
    have := h.capacity _ hl (by rw [View.dirent_some, hkind])
    rwa [View.dirent_some, he] at this
  -- the volume after the call of `fat_truncate`
  obtain ⟨r, e', u, ch', hensure, hchange, hr⟩ : ∃ r e' u ch',
      v.ensureSize fatTruncate ⟨e, p⟩ (offset + bs.length) = some (r, ⟨e', p⟩, u) ∧ v.view.FileChange u.view ch ch' l ∧
        (r = -1 ∨ r = 0 ∧ e' = e.resize (max e.fileSize.toNat (offset + bs.length)) ∧ u.view.slot l = e' ∧
          (∃ extra, (∀ b ∈ extra, b = 0) ∧ u.view.bytes (ch' (some l)) = v.view.bytes (ch (some l)) ++ extra) ∧
          offset + bs.length ≤ (ch' (some l)).length * v.fs.bytesPerCluster ∧
          (bs = [] ∨ offset / v.fs.bytesPerCluster < (ch' (some l)).length)) := by
    by_cases hgrow : e.fileSize.toNat < offset + bs.length
    · obtain ⟨r, e', u, ch', hu, hchange, hr⟩ := fatTruncate_grow_spec hs h hl he hfile hq hdir hmem hp hsize hgrow
        (hfinds hgrow)
      refine ⟨r, e', u, ch', by rw [ensureSize, if_pos hgrow, hu], hchange, hr.imp_right ?_⟩
      rintro ⟨rfl, rfl, hslot, hextra, hcount⟩
      refine ⟨rfl, by rw [Nat.max_eq_right hgrow.le], hslot, hextra, ?_, .inr ?_⟩
      · have h1 := Nat.div_add_mod (offset + bs.length) v.fs.bytesPerCluster
        have h2 := Nat.mod_lt (offset + bs.length) hpos
        rw [hcount, Nat.succ_mul, Nat.mul_comm]
        omega
      · rw [hcount]
        exact Nat.lt_succ_of_le (Nat.div_le_div_right (Nat.le_add_right _ _))
    · refine ⟨0, e, v, ch, by rw [ensureSize, if_neg hgrow], .refl h hkind, .inr ⟨rfl, ?_, he, ⟨[], by simp, ?_⟩, ?_, ?_⟩⟩
      · rw [Nat.max_eq_left (by omega), resize_self e rfl]
      · rw [List.append_nil]
      · omega
      · rcases List.eq_nil_or_concat bs with hbs | ⟨bs', b, rfl⟩
        · exact .inl hbs
        · rw [List.length_concat] at hgrow
          exact .inr (Nat.div_lt_of_lt_mul (by rw [Nat.mul_comm]; omega))
  have hmod : (offset + bs.length) % 2 ^ 32 = offset + bs.length := Nat.mod_eq_of_lt hsize
  rw [fatWrite, fatWriteWith, if_neg (by simp [hfile]), if_neg hpos.ne', hmod]
  simp only [hensure, Option.bind_eq_bind, Option.bind_some]
  rcases hr with rfl | ⟨rfl, rfl, hslot, ⟨extra, hzero, hextra⟩, hroom, hidx⟩
  · exact ⟨-1, e, u, ch', rfl, hchange, .inl rfl⟩
  have hfs : u.fs = v.fs := hchange.fs
  have hus : u.fs.Sound := hfs ▸ hs
  have hlu : View.Node u.view (some l) := (hchange.node _).2 hl
  have hchain := hchange.tree.owns _ hlu
  rw [View.Owns, View.dirent_some, hslot] at hchain
  have hin : ∀ c ∈ ch' (some l), c < u.view.fat.length := fun c hc => View.Chain.lt_length hchain hc
  have hlength : offset + bs.length ≤ (v.view.bytes (ch (some l)) ++ extra).length := by
    rw [← hextra, View.length_bytes (view_sized hus) hin, view_fs, hfs]
    exact hroom
  simp only [ne_eq, not_true_eq_false, ↓reduceIte]
  rcases hidx with rfl | hidx
  · have hle : offset / v.fs.bytesPerCluster ≤ (ch' (some l)).length := by
      refine Nat.div_le_of_le_mul ?_
      rw [Nat.mul_comm]
      simpa using hroom
    obtain ⟨o, ho⟩ := writeSeek_isSome hus hchain hle
    rw [ho]
    cases o with
    | none => exact ⟨-1, _, u, ch', rfl, hchange, .inl rfl⟩
    | some c => exact ⟨_, _, u, ch', rfl, hchange, .inr ⟨rfl, rfl, hslot, extra, hzero, hlength,
        by rw [splice_nil, hextra]⟩⟩
  have hc := List.getElem?_eq_getElem hidx
  have hseek := writeSeek_spec hus hchain hidx
  rw [hc] at hseek
  have hsplit := List.take_append_drop (offset / v.fs.bytesPerCluster) (ch' (some l))
  have hdiv := Nat.div_add_mod offset v.fs.bytesPerCluster
  obtain ⟨w, hw, hwfs, hwfat, hwdata, hwbytes⟩ := writeLoop_spec hus (hchain.drop hc) (length_zeroBuffer hus)
    (by rw [hfs]; exact Nat.mod_lt offset hpos)
    (by
      rw [hfs, List.length_drop, Nat.sub_mul]
      rw [Nat.mul_comm] at hdiv
      omega : offset % v.fs.bytesPerCluster + bs.length ≤ _)
    (by rw [hfs]; exact offset_fuel hpos offset bs.length)
  rw [hseek]
  simp only [Option.bind_some, hw]
  refine ⟨_, _, w, ch', rfl, hchange.trans h hkind (.of_contents hchange.tree hlu hchange.kind hwfs hwfat ?_),
    .inr ⟨rfl, rfl, ?_, extra, hzero, hlength, ?_⟩⟩
  · intro c hc'
    exact hwdata c fun hmem' => hc' (List.mem_of_mem_drop hmem')
  · have hql : q ≠ some l := by
      rintro rfl
      rw [View.dirent_some, hkind] at hdir
      cases hdir
    have hout : l.1 ∉ ch' (some l) := by
      intro hin
      refine hchange.tree.disjoint _ _ hlu ((hchange.node q).2 hq) (Ne.symm hql) hin ?_
      rw [hchange.chain q hql]
      exact (View.mem_locs.1 hmem).1
    rw [View.slot, hwdata l.1 fun hin => hout (List.mem_of_mem_drop hin)]
    exact hslot
  · have hnodup := Linked.Chain.nodup u.view.terminates hchain
    have hhead : w.view.bytes ((ch' (some l)).take (offset / v.fs.bytesPerCluster)) =
        u.view.bytes ((ch' (some l)).take (offset / v.fs.bytesPerCluster)) :=
      View.bytes_congr fun c hc' => hwdata c fun hd => List.disjoint_take_drop hnodup (le_refl _) hc' hd
    have hlen : (u.view.bytes ((ch' (some l)).take (offset / v.fs.bytesPerCluster))).length =
        v.fs.bytesPerCluster * (offset / v.fs.bytesPerCluster) := by
      rw [View.length_bytes (view_sized hus) fun c hc' => hin c (List.mem_of_mem_take hc'), List.length_take,
        Nat.min_eq_left hidx.le, view_fs, hfs, Nat.mul_comm]
    have happ : ∀ t : View, t.bytes (ch' (some l)) = t.bytes ((ch' (some l)).take (offset / v.fs.bytesPerCluster)) ++
        t.bytes ((ch' (some l)).drop (offset / v.fs.bytesPerCluster)) := by
      intro t
      rw [View.bytes, View.bytes, View.bytes, ← List.flatMap_append, hsplit]
    rw [happ w.view, hhead, hwbytes, ← splice_append_right, hlen, hdiv, ← happ u.view, hextra]

end

end Volume

end DBolOS.Fat
