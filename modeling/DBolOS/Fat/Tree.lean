import DBolOS.Fat.Slots

/-!
# The directory tree

The entries of a view are the root directory and the slots in use that are reached through directories, the aliases `.`
and `..` excepted (`Node`).  A view is well formed when the chains of its entries exist, are large enough and share no
cluster (`WellFormed`).  Each elementary change of the file system keeps it so and changes the entries in one way.
-/

namespace DBolOS.Fat

open Linked

/-- The record is that of an entry: in use and not an alias. -/
def DirEntry.isEntry (e : DirEntry) : Bool := decide (e.nameStr ≠ [] ∧ e.nameStr ≠ [dot] ∧ e.nameStr ≠ [dot, dot])

namespace View

/-- The record of an entry, the root directory being `none`. -/
def dirent (s : View) : Option Loc → DirEntry
  | none => rootDir s.fs
  | some l => s.slot l

@[simp] theorem dirent_none (s : View) : s.dirent none = rootDir s.fs := rfl

@[simp] theorem dirent_some (s : View) (l : Loc) : s.dirent (some l) = s.slot l := rfl

/-- The clusters of an entry are `cs`. -/
def Owns (s : View) (n : Option Loc) (cs : List Nat) : Prop := s.Chain (s.dirent n).startCluster.toNat cs

inductive Node (s : View) : Option Loc → Prop
  | root : Node s none
  | child {p : Option Loc} {cs : List Nat} {l : Loc} (hp : Node s p) (hdir : (s.dirent p).isDirectory)
      (hcs : s.Owns p cs) (hl : l ∈ s.locs cs) (he : (s.slot l).isEntry) : Node s (some l)

structure WellFormed (s : View) : Prop where
  reserved : ∀ i < 2, ∃ x, s.fat[i]? = some x ∧ x ≠ freeCluster
  chain : ∀ n, Node s n → ∃ cs, s.Owns n cs ∧
    ((s.dirent n).isDirectory = false → (s.dirent n).fileSize.toNat ≤ cs.length * s.fs.bytesPerCluster)
  disjoint : ∀ n m cs ds, Node s n → Node s m → n ≠ m → s.Owns n cs → s.Owns m ds → cs.Disjoint ds

/-- A well-formed view with the chain of each entry. -/
structure Tree (s : View) (ch : Option Loc → List Nat) : Prop where
  reserved : ∀ i < 2, ∃ x, s.fat[i]? = some x ∧ x ≠ freeCluster
  owns : ∀ n, Node s n → s.Owns n (ch n)
  capacity : ∀ n, Node s n → (s.dirent n).isDirectory = false →
    (s.dirent n).fileSize.toNat ≤ (ch n).length * s.fs.bytesPerCluster
  disjoint : ∀ n m, Node s n → Node s m → n ≠ m → (ch n).Disjoint (ch m)

variable {s s' : View} {ch ch' : Option Loc → List Nat}

theorem owns_functional {n : Option Loc} {cs ds : List Nat} (h : s.Owns n cs) (h' : s.Owns n ds) : cs = ds :=
  Chain.functional s.terminates h h'

theorem wellFormed_iff : s.WellFormed ↔ ∃ ch, s.Tree ch := by
  classical
  constructor
  · intro h
    have hchoose : ∀ n, ∃ cs, Node s n → s.Owns n cs ∧
        ((s.dirent n).isDirectory = false → (s.dirent n).fileSize.toNat ≤ cs.length * s.fs.bytesPerCluster) := by
      intro n
      by_cases hn : Node s n
      · obtain ⟨cs, hcs⟩ := h.chain n hn
        exact ⟨cs, fun _ => hcs⟩
      · exact ⟨[], fun hn' => absurd hn' hn⟩
    choose ch hch using hchoose
    exact ⟨ch, h.reserved, fun n hn => (hch n hn).1, fun n hn => (hch n hn).2,
      fun n m hn hm hne => h.disjoint n m _ _ hn hm hne (hch n hn).1 (hch m hm).1⟩
  · rintro ⟨ch, h⟩
    refine ⟨h.reserved, fun n hn => ⟨ch n, h.owns n hn, h.capacity n hn⟩, ?_⟩
    intro n m cs ds hn hm hne hcs hds
    rw [owns_functional hcs (h.owns n hn), owns_functional hds (h.owns m hm)]
    exact h.disjoint n m hn hm hne

/-! ### Entries of a directory -/

/-- The slot `l` of the directory `p` holds an entry. -/
structure Child (s : View) (ch : Option Loc → List Nat) (p : Option Loc) (l : Loc) : Prop where
  dir : (s.dirent p).isDirectory
  mem : l ∈ s.locs (ch p)
  entry : (s.slot l).isEntry

theorem Tree.node_child (h : s.Tree ch) {p : Option Loc} {l : Loc} (hp : Node s p) (hl : s.Child ch p l) :
    Node s (some l) := .child hp hl.dir (h.owns p hp) hl.mem hl.entry

theorem Tree.node_cases (h : s.Tree ch) {l : Loc} (hl : Node s (some l)) :
    ∃ p, Node s p ∧ s.Child ch p l := by
  cases hl with
  | child hp hdir hcs hl he => exact ⟨_, hp, hdir, owns_functional hcs (h.owns _ hp) ▸ hl, he⟩

private theorem Tree.node_induction (h : s.Tree ch) {P : Option Loc → Prop} (hroot : P none)
    (hchild : ∀ p l, Node s p → P p → s.Child ch p l → P (some l)) {n : Option Loc} (hn : Node s n) : P n := by
  induction hn with
  | root => exact hroot
  | child hp hdir hcs hl he ih => exact hchild _ _ hp ih ⟨hdir, owns_functional hcs (h.owns _ hp) ▸ hl, he⟩

/-- A slot lies in one directory. -/
theorem Tree.owner_unique (h : s.Tree ch) {p q : Option Loc} {l : Loc} (hp : Node s p) (hq : Node s q)
    (hlp : l ∈ s.locs (ch p)) (hlq : l ∈ s.locs (ch q)) : p = q := by
  by_contra hne
  exact h.disjoint p q hp hq hne (mem_locs.1 hlp).1 (mem_locs.1 hlq).1

theorem Tree.lt_length (h : s.Tree ch) {n : Option Loc} {c : Nat} (hn : Node s n) (hc : c ∈ ch n) :
    c < s.fat.length := Chain.lt_length (h.owns n hn) hc

/-- The clusters of a record are those of its entry. -/
theorem Tree.chain_eq (h : s.Tree ch) {l : Loc} {e : DirEntry} {cs : List Nat} (hl : Node s (some l)) (he : s.slot l = e)
    (hcs : s.Chain e.startCluster.toNat cs) : ch (some l) = cs := by
  refine owns_functional (h.owns _ hl) ?_
  rw [Owns, dirent_some, he]
  exact hcs

/-- A free cluster belongs to no entry. -/
theorem Tree.not_mem_of_free (h : s.Tree ch) {n : Option Loc} {f : Nat} (hn : Node s n)
    (hf : s.fat[f]? = some freeCluster) : f ∉ ch n :=
  Chain.not_mem_of_free (h.owns n hn) hf

theorem Tree.two_le_of_free (h : s.Tree ch) {f : Nat} (hf : s.fat[f]? = some freeCluster) : 2 ≤ f := by
  by_contra hlt
  obtain ⟨x, hx, hfree⟩ := h.reserved f (by omega)
  rw [hf] at hx
  exact hfree (Option.some.inj hx).symm

/-! ### Changing a tree -/

/-- A set of slots that is closed under the entries of its directories covers the entries. -/
private theorem tree_of_cover (S : Option Loc → Prop) (hroot : S none) (howns : ∀ n, S n → s'.Owns n (ch' n))
    (hclosed : ∀ p l, S p → s'.Child ch' p l → S (some l))
    (hcapacity : ∀ n, S n → (s'.dirent n).isDirectory = false →
      (s'.dirent n).fileSize.toNat ≤ (ch' n).length * s'.fs.bytesPerCluster)
    (hdisjoint : ∀ n m, S n → S m → n ≠ m → (ch' n).Disjoint (ch' m))
    (hreserved : ∀ i < 2, ∃ x, s'.fat[i]? = some x ∧ x ≠ freeCluster) :
    s'.Tree ch' ∧ ∀ n, Node s' n → S n := by
  have hcover : ∀ n, Node s' n → S n := by
    intro n hn
    induction hn with
    | root => exact hroot
    | child hp hdir hcs hl he ih => exact hclosed _ _ ih ⟨hdir, owns_functional hcs (howns _ ih) ▸ hl, he⟩
  exact ⟨⟨hreserved, fun n hn => howns n (hcover n hn), fun n hn => hcapacity n (hcover n hn),
    fun n m hn hm => hdisjoint n m (hcover n hn) (hcover m hm)⟩, hcover⟩

/-- A change that keeps the chains of the entries up to growth, and which slots hold entries, keeps the entries. -/
theorem Tree.of_same_children (h : s.Tree ch) (hfs : s'.fs = s.fs)
    (howns : ∀ n, Node s n → s'.Owns n (ch' n))
    (hchild : ∀ p l, Node s p → (s'.Child ch' p l ↔ s.Child ch p l))
    (hcapacity : ∀ n, Node s n → (s'.dirent n).isDirectory = false →
      (s'.dirent n).fileSize.toNat ≤ (ch' n).length * s.fs.bytesPerCluster)
    (hdisjoint : ∀ n m, Node s n → Node s m → n ≠ m → (ch' n).Disjoint (ch' m))
    (hreserved : ∀ i < 2, ∃ x, s'.fat[i]? = some x ∧ x ≠ freeCluster) :
    s'.Tree ch' ∧ ∀ n, Node s' n ↔ Node s n := by
  obtain ⟨htree, hcover⟩ := tree_of_cover (Node s) .root howns
    (fun p l hp hl => h.node_child hp ((hchild p l hp).1 hl)) (by rw [hfs]; exact hcapacity) hdisjoint hreserved
  refine ⟨htree, fun n => ⟨hcover n, fun hn => ?_⟩⟩
  refine h.node_induction (P := Node s') .root (fun p l hp hp' hl => ?_) hn
  exact htree.node_child hp' ((hchild p l hp).2 hl)

/-! ### The elementary changes -/

/-- A change outside the chains of the entries and the data of the directories. -/
theorem Tree.frame (h : s.Tree ch) (hfs : s'.fs = s.fs) (hreserved : ∀ i < 2, s'.fat[i]? = s.fat[i]?)
    (hfat : ∀ n, Node s n → ∀ c ∈ ch n, s'.fat[c]? = s.fat[c]?)
    (hdata : ∀ p, Node s p → (s.dirent p).isDirectory → ∀ c ∈ ch p, s'.data c = s.data c) :
    s'.Tree ch ∧ (∀ n, Node s' n ↔ Node s n) ∧ ∀ n, Node s n → s'.dirent n = s.dirent n := by
  have hslot : ∀ p l, Node s p → (s.dirent p).isDirectory → l ∈ s.locs (ch p) → s'.slot l = s.slot l := by
    intro p l hp hdir hl
    rw [slot, slot, hdata p hp hdir l.1 (mem_locs.1 hl).1]
  have hdirent : ∀ n, Node s n → s'.dirent n = s.dirent n := by
    intro n hn
    cases n with
    | none => rw [dirent_none, dirent_none, hfs]
    | some l =>
      obtain ⟨p, hp, hl⟩ := h.node_cases hn
      exact hslot p l hp hl.dir hl.mem
  have hlocs : ∀ cs, s'.locs cs = s.locs cs := fun cs => by rw [locs, locs, hfs]
  have hboth : s'.Tree ch ∧ ∀ n, Node s' n ↔ Node s n := h.of_same_children hfs
    (fun n hn => by
      rw [Owns, hdirent n hn]
      exact Chain.congr (h.owns n hn) (hfat n hn))
    (fun p l hp => by
      constructor
      · rintro ⟨hdir, hl, he⟩
        rw [hdirent p hp] at hdir
        rw [hlocs] at hl
        exact ⟨hdir, hl, hslot p l hp hdir hl ▸ he⟩
      · rintro ⟨hdir, hl, he⟩
        exact ⟨by rwa [hdirent p hp], by rwa [hlocs], by rwa [hslot p l hp hdir hl]⟩)
    (fun n hn => by
      rw [hdirent n hn]
      exact h.capacity n hn)
    h.disjoint
    (fun i hi => by
      rw [hreserved i hi]
      exact h.reserved i hi)
  exact ⟨hboth.1, hboth.2, hdirent⟩

/-- Claiming a free cluster. -/
theorem Tree.claim (h : s.Tree ch) {f : Nat} (hf : s.fat[f]? = some freeCluster) :
    (s.claim f).Tree ch ∧ (∀ n, Node (s.claim f) n ↔ Node s n) ∧
      ∀ n, Node s n → (s.claim f).dirent n = s.dirent n := by
  have htwo := h.two_le_of_free hf
  have hkeep : ∀ c, c ≠ f → (s.claim f).fat[c]? = s.fat[c]? := by
    intro c hc
    exact List.getElem?_set_ne (Ne.symm hc)
  refine h.frame rfl (fun i hi => hkeep i (by omega)) ?_ ?_
  · rintro n hn c hc
    refine hkeep c ?_
    rintro rfl
    exact h.not_mem_of_free hn hf hc
  · rintro p hp - c hc
    refine Function.update_of_ne ?_ _ _
    rintro rfl
    exact h.not_mem_of_free hp hf hc

/-- Freeing a chain that belongs to no entry. -/
theorem Tree.freeAll (h : s.Tree ch) {cs : List Nat} (hcs : ∀ n, Node s n → (ch n).Disjoint cs)
    (htwo : ∀ c ∈ cs, 2 ≤ c) :
    (s.freeAll cs).Tree ch ∧ (∀ n, Node (s.freeAll cs) n ↔ Node s n) ∧
      ∀ n, Node s n → (s.freeAll cs).dirent n = s.dirent n := by
  refine h.frame (freeAll_fs s cs) ?_ ?_ ?_
  · intro i hi
    rw [getElem?_freeAll, if_neg]
    rintro ⟨hmem, _⟩
    have := htwo i hmem
    omega
  · intro n hn c hc
    rw [getElem?_freeAll, if_neg]
    rintro ⟨hmem, _⟩
    exact hcs n hn hc hmem
  · intro p _ _ c _
    rw [freeAll_data]

theorem slotAt_replicate (n i : Nat) : slotAt (List.replicate n 0) i = DirEntry.zero := by
  have hbyte : ∀ j, (((List.replicate n (0 : UInt8)).drop (32 * i)).take 32).getD j 0 = 0 := by
    intro j
    rw [List.drop_replicate, List.take_replicate, List.getD_eq_getElem?_getD, List.getElem?_replicate]
    split <;> rfl
  simp only [slotAt, DirEntry.ofBytes, hbyte, DirEntry.zero, DirEntry.mk.injEq]
  refine ⟨?_, by decide, by decide⟩
  apply Vector.ext
  intro j hj
  simp

theorem zero_unused : DirEntry.zero.unused := by decide

theorem not_isEntry_of_unused {e : DirEntry} (h : e.unused) : ¬ e.isEntry := by
  simp only [DirEntry.unused, decide_eq_true_eq] at h
  simp [DirEntry.isEntry, h]

/-- The entry of a table index that is no end marker links to it. -/
private theorem next_ofNat {c f : Nat} (hc : s.fat[c]? = some (UInt16.ofNat f)) (hpos : 0 < f) (hlen : f < 0xFFF8) :
    s.next c = some f := by
  have hnat : (UInt16.ofNat f).toNat = f := by
    rw [UInt16.toNat_ofNat']
    omega
  have hend : isEndOfClusterChain (UInt16.ofNat f) = false := by
    simp only [isEndOfClusterChain, decide_eq_false_iff_not, UInt16.le_iff_toNat_le, hnat]
    exact Nat.not_le.2 hlen
  have hfree : UInt16.ofNat f ≠ freeCluster := by
    intro h0
    have := congrArg UInt16.toNat h0
    rw [hnat] at this
    exact absurd (this.trans (show freeCluster.toNat = 0 from rfl)) (by omega)
  rw [next_of_getElem? hc hend hfree, hnat]

/-- The table after a cluster was hung behind another. -/
theorem getElem?_extend {last f : Nat} (hne : last ≠ f) (hl : last < s.fat.length) (hf : f < s.fat.length) :
    (s.extend last f).fat[f]? = some clusterChainEnd ∧ (s.extend last f).fat[last]? = some (UInt16.ofNat f) ∧
      ∀ c, c ≠ last → c ≠ f → (s.extend last f).fat[c]? = s.fat[c]? := by
  have hfat : (s.extend last f).fat = (s.fat.set last (UInt16.ofNat f)).set f clusterChainEnd := rfl
  rw [hfat]
  refine ⟨?_, ?_, fun c h1 h2 => ?_⟩
  · rw [List.getElem?_set_self (by simpa using hf)]
  · rw [List.getElem?_set_ne (Ne.symm hne), List.getElem?_set_self hl]
  · rw [List.getElem?_set_ne (Ne.symm h2), List.getElem?_set_ne (Ne.symm h1)]

theorem Chain.extend {start last f : Nat} {cs : List Nat} (h : s.Chain start cs) (hlast : cs.getLast? = some last)
    (hf : s.fat[f]? = some freeCluster) (hpos : 0 < f) (hlen : f < 0xFFF8) :
    (s.extend last f).Chain start (cs ++ [f]) := by
  have hfcs : f ∉ cs := Chain.not_mem_of_free h hf
  have hmem : last ∈ cs := List.mem_of_getLast? hlast
  have hne : last ≠ f := by
    rintro rfl
    exact hfcs hmem
  obtain ⟨hend, hlink, hkeep⟩ := getElem?_extend hne (Chain.lt_length h hmem) (List.getElem?_eq_some_iff.1 hf).1
  refine Linked.Chain.snoc s.terminates h hlast ?_ (next_ofNat hlink hpos hlen) ⟨_, hend, by decide⟩
  intro c hc hcl
  have hcf : c ≠ f := by
    rintro rfl
    exact hfcs hc
  rw [next, next, hkeep c hcl hcf]

/-- Hanging a free cluster, zeroed, behind the chain of an entry. -/
theorem Tree.extend (h : s.Tree ch) {p : Option Loc} {last f : Nat} (hp : Node s p)
    (hlast : (ch p).getLast? = some last) (hf : s.fat[f]? = some freeCluster) (hlen : f < 0xFFF8) :
    (s.extend last f).Tree (Function.update ch p (ch p ++ [f])) ∧ (∀ n, Node (s.extend last f) n ↔ Node s n) ∧
      ∀ n, Node s n → (s.extend last f).dirent n = s.dirent n := by
  have htwo := h.two_le_of_free hf
  have hfree : ∀ n, Node s n → f ∉ ch n := fun n hn => h.not_mem_of_free hn hf
  have hmem : last ∈ ch p := List.mem_of_getLast? hlast
  have hne : last ≠ f := by
    rintro rfl
    exact hfree p hp hmem
  obtain ⟨hendf, hlink, hkeep⟩ := getElem?_extend hne (h.lt_length hp hmem) (List.getElem?_eq_some_iff.1 hf).1
  have hdata : ∀ n, Node s n → ∀ c ∈ ch n, (s.extend last f).data c = s.data c := by
    intro n hn c hc
    refine Function.update_of_ne ?_ _ _
    rintro rfl
    exact hfree n hn hc
  have hslot : ∀ q l, Node s q → l ∈ s.locs (ch q) → (s.extend last f).slot l = s.slot l := by
    intro q l hq hl
    rw [slot, slot, hdata q hq l.1 (mem_locs.1 hl).1]
  have hdirent : ∀ n, Node s n → (s.extend last f).dirent n = s.dirent n := by
    intro n hn
    cases n with
    | none => rfl
    | some l =>
      obtain ⟨q, hq, hl⟩ := h.node_cases hn
      exact hslot q l hq hl.mem
  have hnew : ∀ i, ¬ ((s.extend last f).slot (f, i)).isEntry := by
    intro i
    have hzero : (s.extend last f).data f = List.replicate s.fs.bytesPerCluster 0 := Function.update_self ..
    rw [slot, hzero, slotAt_replicate]
    exact not_isEntry_of_unused zero_unused
  have howns : ∀ n, Node s n → (s.extend last f).Owns n (Function.update ch p (ch p ++ [f]) n) := by
    intro n hn
    rw [Owns, hdirent n hn]
    by_cases hnp : n = p
    · subst hnp
      rw [Function.update_self]
      exact Chain.extend (h.owns n hn) hlast hf (by omega) hlen
    · rw [Function.update_of_ne hnp]
      refine Chain.congr (h.owns n hn) fun c hc => hkeep c ?_ (fun hcf => hfree n hn (hcf ▸ hc))
      rintro rfl
      exact h.disjoint n p hn hp hnp hc hmem
  have hboth : (s.extend last f).Tree (Function.update ch p (ch p ++ [f])) ∧
      ∀ n, Node (s.extend last f) n ↔ Node s n := by
    refine h.of_same_children rfl howns ?_ ?_ ?_ ?_
    · intro q l hq
      have hlocs : l ∈ (s.extend last f).locs (Function.update ch p (ch p ++ [f]) q) →
          l ∈ s.locs (ch q) ∨ l.1 = f := by
        intro hl
        obtain ⟨hc, hi⟩ := mem_locs.1 hl
        by_cases hqp : q = p
        · rw [hqp, Function.update_self, List.mem_append, List.mem_singleton] at hc
          exact hc.imp (fun hc => mem_locs.2 ⟨hqp ▸ hc, hi⟩) id
        · rw [Function.update_of_ne hqp] at hc
          exact .inl (mem_locs.2 ⟨hc, hi⟩)
      constructor
      · rintro ⟨hdir, hl, he⟩
        rw [hdirent q hq] at hdir
        rcases hlocs hl with hl | hl
        · exact ⟨hdir, hl, hslot q l hq hl ▸ he⟩
        · exact absurd he (by rw [← Prod.mk.eta (p := l), hl]; exact hnew _)
      · rintro ⟨hdir, hl, he⟩
        refine ⟨by rwa [hdirent q hq], mem_locs.2 ⟨?_, (mem_locs.1 hl).2⟩, by rwa [hslot q l hq hl]⟩
        by_cases hqp : q = p
        · rw [hqp, Function.update_self, List.mem_append]
          exact .inl (hqp ▸ (mem_locs.1 hl).1)
        · rw [Function.update_of_ne hqp]
          exact (mem_locs.1 hl).1
    · intro n hn hfile
      rw [hdirent n hn] at hfile ⊢
      refine (h.capacity n hn hfile).trans (Nat.mul_le_mul_right _ ?_)
      by_cases hnp : n = p
      · rw [hnp, Function.update_self, List.length_append]
        omega
      · rw [Function.update_of_ne hnp]
    · intro n m hn hm hnm
      by_cases hnp : n = p
      · subst hnp
        rw [Function.update_self, Function.update_of_ne (Ne.symm hnm), List.disjoint_append_left]
        exact ⟨h.disjoint n m hn hm hnm, by simpa using hfree m hm⟩
      · rw [Function.update_of_ne hnp]
        by_cases hmp : m = p
        · subst hmp
          rw [Function.update_self, List.disjoint_append_right]
          exact ⟨h.disjoint n m hn hm hnm, by simpa using hfree n hn⟩
        · rw [Function.update_of_ne hmp]
          exact h.disjoint n m hn hm hnm
    · intro i hi
      by_cases hil : i = last
      · refine ⟨_, by rw [hil]; exact hlink, ?_⟩
        intro h0
        have hnext := next_ofNat hlink (by omega) hlen
        rw [h0] at hlink
        simp [next, hlink] at hnext
      · rw [hkeep i hil (by omega)]
        exact h.reserved i hi
  exact ⟨hboth.1, hboth.2, hdirent⟩

/-! ### Storing a record -/

/-- What storing a record in a slot of the directory `p` does to the entries' records and children. -/
theorem Tree.putSlot_facts (h : s.Tree ch) (hs : s.Sized) {p : Option Loc} {l : Loc} (e : DirEntry) (hp : Node s p)
    (hl : l ∈ s.locs (ch p)) :
    (s.putSlot l e).slot l = e ∧ (∀ l', l' ≠ l → (s.putSlot l e).slot l' = s.slot l') ∧
      ∀ n, n ≠ some l → (s.putSlot l e).dirent n = s.dirent n := by
  obtain ⟨hc, hi⟩ := mem_locs.1 hl
  have hlt := h.lt_length hp hc
  have hne := fun l' (h' : l' ≠ l) => slot_putSlot_of_ne hs e hlt hi h'
  refine ⟨slot_putSlot_self hs e hlt hi, hne, fun n hn => ?_⟩
  cases n with
  | none => rfl
  | some l' => exact hne l' fun h' => hn (by rw [h'])

/-- Replacing the record of an entry by one with the same start and kind, or a record that is no entry by another such
record: the entries are the same. -/
theorem Tree.putSlot_same (h : s.Tree ch) (hs : s.Sized) {p : Option Loc} {l : Loc} {e : DirEntry} (hp : Node s p)
    (hl : l ∈ s.locs (ch p)) (hentry : e.isEntry = (s.slot l).isEntry)
    (hnode : Node s (some l) → e.startCluster = (s.slot l).startCluster ∧ e.isDirectory = (s.slot l).isDirectory ∧
      (e.isDirectory = false → e.fileSize.toNat ≤ (ch (some l)).length * s.fs.bytesPerCluster)) :
    (s.putSlot l e).Tree ch ∧ (∀ n, Node (s.putSlot l e) n ↔ Node s n) ∧
      ∀ n, n ≠ some l → (s.putSlot l e).dirent n = s.dirent n := by
  obtain ⟨hself, hother, hdirent⟩ := h.putSlot_facts hs e hp hl
  have hkind : ∀ n, Node s n → ((s.putSlot l e).dirent n).startCluster = (s.dirent n).startCluster ∧
      ((s.putSlot l e).dirent n).isDirectory = (s.dirent n).isDirectory := by
    intro n hn
    by_cases hnl : n = some l
    · subst hnl
      obtain ⟨hstart, hdir, _⟩ := hnode hn
      rw [dirent_some, dirent_some, hself]
      exact ⟨hstart, hdir⟩
    · rw [hdirent n hnl]
      exact ⟨rfl, rfl⟩
  have hslot : ∀ l', ((s.putSlot l e).slot l').isEntry = (s.slot l').isEntry := by
    intro l'
    by_cases hl' : l' = l
    · rw [hl', hself, hentry]
    · rw [hother l' hl']
  have hboth : (s.putSlot l e).Tree ch ∧ ∀ n, Node (s.putSlot l e) n ↔ Node s n := by
    refine h.of_same_children rfl (fun n hn => ?_) (fun q l' hq => ?_) (fun n hn hfile => ?_) h.disjoint h.reserved
    · rw [Owns, (hkind n hn).1]
      exact Chain.congr (h.owns n hn) fun _ _ => rfl
    · constructor
      · rintro ⟨hdir, hmem, he⟩
        exact ⟨(hkind q hq).2 ▸ hdir, hmem, hslot l' ▸ he⟩
      · rintro ⟨hdir, hmem, he⟩
        exact ⟨(hkind q hq).2.symm ▸ hdir, hmem, (hslot l').symm ▸ he⟩
    · by_cases hnl : n = some l
      · subst hnl
        rw [dirent_some, hself] at hfile ⊢
        exact (hnode hn).2.2 hfile
      · rw [hdirent n hnl] at hfile ⊢
        exact h.capacity n hn hfile
  exact ⟨hboth.1, hboth.2, hdirent⟩

/-- Storing the record of a new entry in a slot that holds none. -/
theorem Tree.putSlot_new (h : s.Tree ch) (hs : s.Sized) {p : Option Loc} {l : Loc} {e : DirEntry} {cs : List Nat}
    (hp : Node s p) (hdir : (s.dirent p).isDirectory) (hl : l ∈ s.locs (ch p)) (hold : ¬ (s.slot l).isEntry)
    (he : e.isEntry) (hcs : s.Chain e.startCluster.toNat cs) (hdisj : ∀ n, Node s n → (ch n).Disjoint cs)
    (hcapacity : e.isDirectory = false → e.fileSize.toNat ≤ cs.length * s.fs.bytesPerCluster)
    (hempty : e.isDirectory → ∀ l' ∈ s.locs cs, ¬ (s.slot l').isEntry) :
    (s.putSlot l e).Tree (Function.update ch (some l) cs) ∧
      (∀ n, Node (s.putSlot l e) n ↔ Node s n ∨ n = some l) ∧
      ∀ n, n ≠ some l → (s.putSlot l e).dirent n = s.dirent n := by
  obtain ⟨hself, hother, hdirent⟩ := h.putSlot_facts hs e hp hl
  have hnot : ¬ Node s (some l) := by
    intro hn
    obtain ⟨q, _, hq⟩ := h.node_cases hn
    exact hold hq.entry
  have hne : ∀ n, Node s n → n ≠ some l := by
    rintro n hn rfl
    exact hnot hn
  have hch : ∀ n, Node s n → Function.update ch (some l) cs n = ch n :=
    fun n hn => Function.update_of_ne (hne n hn) _ _
  -- the slot is in use by `p` alone, and its cluster is not one of the new chain
  have hchild : ∀ q l', Node s q → ((s.putSlot l e).Child (Function.update ch (some l) cs) q l' ↔
      s.Child ch q l' ∨ q = p ∧ l' = l) := by
    intro q l' hq
    constructor
    · rintro ⟨hd, hmem, hent⟩
      rw [hdirent q (hne q hq)] at hd
      rw [hch q hq] at hmem
      by_cases hl' : l' = l
      · subst hl'
        exact .inr ⟨h.owner_unique hq hp hmem hl, rfl⟩
      · rw [hother l' hl'] at hent
        exact .inl ⟨hd, hmem, hent⟩
    · rintro (⟨hd, hmem, hent⟩ | ⟨rfl, rfl⟩)
      · have hl' : l' ≠ l := by
          rintro rfl
          exact hold hent
        exact ⟨by rwa [hdirent q (hne q hq)], by rwa [hch q hq], by rwa [hother l' hl']⟩
      · exact ⟨by rwa [hdirent q (hne q hq)], by rwa [hch q hq], by rwa [hself]⟩
  have hlnew : l ∉ s.locs cs := fun hmem => hdisj p hp (mem_locs.1 hl).1 (mem_locs.1 hmem).1
  have hboth : (s.putSlot l e).Tree (Function.update ch (some l) cs) ∧
      ∀ n, Node (s.putSlot l e) n → Node s n ∨ n = some l := by
    refine tree_of_cover (fun n => Node s n ∨ n = some l) (.inl .root) ?_ ?_ ?_ ?_ h.reserved
    · rintro n (hn | rfl)
      · rw [Owns, hdirent n (hne n hn), hch n hn]
        exact Chain.congr (h.owns n hn) fun _ _ => rfl
      · rw [Owns, dirent_some, hself, Function.update_self]
        exact Chain.congr hcs fun _ _ => rfl
    · rintro q l' (hq | rfl) hl'
      · rcases (hchild q l' hq).1 hl' with hc | ⟨_, rfl⟩
        · exact .inl (h.node_child hq hc)
        · exact .inr rfl
      · obtain ⟨hd, hmem, hent⟩ := hl'
        rw [dirent_some, hself] at hd
        rw [Function.update_self] at hmem
        rw [hother l' (fun h' => hlnew (h' ▸ hmem))] at hent
        exact absurd hent (hempty hd l' hmem)
    · rintro n (hn | rfl) hfile
      · rw [hdirent n (hne n hn)] at hfile ⊢
        rw [hch n hn]
        exact h.capacity n hn hfile
      · rw [dirent_some, hself] at hfile ⊢
        rw [Function.update_self]
        exact hcapacity hfile
    · rintro n m (hn | rfl) (hm | rfl) hnm
      · rw [hch n hn, hch m hm]
        exact h.disjoint n m hn hm hnm
      · rw [hch n hn, Function.update_self]
        exact hdisj n hn
      · rw [hch m hm, Function.update_self]
        exact (hdisj m hm).symm
      · exact absurd rfl hnm
  have hp' : ∀ n, Node s n → Node (s.putSlot l e) n := by
    intro n hn
    refine h.node_induction (P := Node (s.putSlot l e)) .root (fun q l' hq hq' hl' => ?_) hn
    exact hboth.1.node_child hq' ((hchild q l' hq).2 (.inl hl'))
  refine ⟨hboth.1, fun n => ⟨hboth.2 n, ?_⟩, hdirent⟩
  rintro (hn | rfl)
  · exact hp' n hn
  · exact hboth.1.node_child (hp' p hp) ((hchild p l hp).2 (.inr ⟨rfl, rfl⟩))

/-- Clearing the slot of an entry and freeing its chain. -/
theorem Tree.remove (h : s.Tree ch) (hs : s.Sized) {l : Loc} (hn : Node s (some l)) (htwo : ∀ c ∈ ch (some l), 2 ≤ c) :
    ((s.freeAll (ch (some l))).putSlot l DirEntry.zero).Tree ch ∧
      (∀ n, Node ((s.freeAll (ch (some l))).putSlot l DirEntry.zero) n → Node s n ∧ n ≠ some l) ∧
      ∀ n, n ≠ some l → ((s.freeAll (ch (some l))).putSlot l DirEntry.zero).dirent n = s.dirent n := by
  obtain ⟨p, hp, hl⟩ := h.node_cases hn
  obtain ⟨hc, hi⟩ := mem_locs.1 hl.mem
  have hlt := h.lt_length hp hc
  have hs' : (s.freeAll (ch (some l))).Sized := hs.freeAll _
  have hlt' : l.1 < (s.freeAll (ch (some l))).fat.length := by rwa [length_freeAll]
  have hi' : l.2 < (s.freeAll (ch (some l))).fs.slotsPerCluster := by rwa [freeAll_fs]
  have hslot : ∀ l', (s.freeAll (ch (some l))).slot l' = s.slot l' := by
    intro l'
    rw [slot, slot, freeAll_data]
  have hself := slot_putSlot_self hs' DirEntry.zero hlt' hi'
  have hother : ∀ l', l' ≠ l → ((s.freeAll (ch (some l))).putSlot l DirEntry.zero).slot l' = s.slot l' :=
    fun l' h' => (slot_putSlot_of_ne hs' DirEntry.zero hlt' hi' h').trans (hslot l')
  have hdirent : ∀ n, n ≠ some l → ((s.freeAll (ch (some l))).putSlot l DirEntry.zero).dirent n = s.dirent n := by
    intro n hnl
    cases n with
    | none => rw [dirent_none, dirent_none, putSlot_fs, freeAll_fs]
    | some l' => exact hother l' fun h' => hnl (by rw [h'])
  have hkeep : ∀ n, Node s n → n ≠ some l → ∀ c ∈ ch n,
      ((s.freeAll (ch (some l))).putSlot l DirEntry.zero).fat[c]? = s.fat[c]? := by
    intro n hn' hnl c hc'
    rw [putSlot_fat, getElem?_freeAll, if_neg]
    rintro ⟨hmem, _⟩
    exact h.disjoint n (some l) hn' hn hnl hc' hmem
  have hboth : ((s.freeAll (ch (some l))).putSlot l DirEntry.zero).Tree ch ∧
      ∀ n, Node ((s.freeAll (ch (some l))).putSlot l DirEntry.zero) n → Node s n ∧ n ≠ some l := tree_of_cover
    (fun n => Node s n ∧ n ≠ some l) ⟨.root, by simp⟩
    (fun n hn' => by
      rw [Owns, hdirent n hn'.2]
      exact Chain.congr (h.owns n hn'.1) (hkeep n hn'.1 hn'.2))
    (fun q l' hq hl' => by
      obtain ⟨hd, hmem, hent⟩ := hl'
      have hne : l' ≠ l := by
        rintro rfl
        rw [hself] at hent
        exact not_isEntry_of_unused zero_unused hent
      rw [hdirent q hq.2] at hd
      rw [hother l' hne] at hent
      have hmem' : l' ∈ s.locs (ch q) := by
        rw [locs, putSlot_fs, freeAll_fs] at hmem
        exact hmem
      exact ⟨h.node_child hq.1 ⟨hd, hmem', hent⟩, fun h' => hne (Option.some.inj h')⟩)
    (fun n hn' hfile => by
      rw [hdirent n hn'.2] at hfile ⊢
      rw [putSlot_fs, freeAll_fs]
      exact h.capacity n hn'.1 hfile)
    (fun n m hn' hm' => h.disjoint n m hn'.1 hm'.1)
    (fun i hi'' => by
      rw [putSlot_fat, getElem?_freeAll, if_neg]
      · exact h.reserved i hi''
      · rintro ⟨hmem, _⟩
        have := htwo i hmem
        omega)
  exact ⟨hboth.1, hboth.2, hdirent⟩

/-! ### Checking a tree -/

/-- Whether the clusters from `start` on are `cs`. -/
def isChain (s : View) (start : Nat) : List Nat → Bool
  | [] => false
  | c :: cs => start == c &&
    match s.next start with
    | some d => isChain s d cs
    | none => cs.isEmpty && s.fat[start]?.any isEndOfClusterChain

/-- Whether `nodes` lists the entries of a well-formed view, with the chain of each. -/
def isTree (s : View) (nodes : List (Option Loc × List Nat)) : Bool :=
  (nodes.map Prod.fst).contains none &&
  nodes.all (fun n => s.isChain (s.dirent n.1).startCluster.toNat n.2 &&
    ((s.dirent n.1).isDirectory || (s.dirent n.1).fileSize.toNat ≤ n.2.length * s.fs.bytesPerCluster) &&
    (!(s.dirent n.1).isDirectory || (s.locs n.2).all fun l => !(s.slot l).isEntry || (nodes.map Prod.fst).contains l)) &&
  nodes.all (fun n => nodes.all fun m => n == m || n.1 != m.1 && n.2.all fun c => !m.2.contains c) &&
  (List.range 2).all (fun i => s.fat[i]?.any (· != freeCluster))

theorem chain_of_isChain {start : Nat} {cs : List Nat} (h : s.isChain start cs) : s.Chain start cs := by
  induction cs generalizing start with
  | nil => cases h
  | cons c cs ih =>
    simp only [isChain, Bool.and_eq_true, beq_iff_eq] at h
    obtain ⟨rfl, h⟩ := h
    cases hnext : s.next start with
    | some d =>
      rw [hnext] at h
      exact .cons hnext (ih h)
    | none =>
      rw [hnext] at h
      simp only [Bool.and_eq_true, List.isEmpty_iff, Option.any_eq_true] at h
      obtain ⟨rfl, x, hx, hend⟩ := h
      exact .last ⟨x, hx, hend⟩

theorem wellFormed_of_isTree {nodes : List (Option Loc × List Nat)} (h : s.isTree nodes) :
    s.WellFormed ∧ ∀ n, Node s n → ∃ cs, (n, cs) ∈ nodes := by
  simp only [isTree, Bool.and_eq_true, List.all_eq_true, Bool.or_eq_true, decide_eq_true_eq, Bool.not_eq_true',
    List.contains_iff_mem, beq_iff_eq, bne_iff_ne, List.mem_map, Prod.exists, exists_and_right, exists_eq_right,
    List.mem_range, Option.any_eq_true] at h
  obtain ⟨⟨⟨⟨cs₀, hroot⟩, hnodes⟩, hdisjoint⟩, hreserved⟩ := h
  have hchain : ∀ n cs, (n, cs) ∈ nodes → s.Owns n cs := fun n cs hn => chain_of_isChain (hnodes _ hn).1.1
  have hcover : ∀ n, Node s n → ∃ cs, (n, cs) ∈ nodes := by
    intro n hn
    induction hn with
    | root => exact ⟨cs₀, hroot⟩
    | @child p cs l hp hdir hcs hl he ih =>
      obtain ⟨ds, hds⟩ := ih
      obtain rfl := owns_functional hcs (hchain _ _ hds)
      rcases (hnodes _ hds).2 with hfile | hclosed
      · rw [hfile] at hdir
        cases hdir
      · exact (hclosed l hl).resolve_left (by simp [he])
  refine ⟨⟨hreserved, fun n hn => ?_, fun n m cs ds hn hm hne hcs hds => ?_⟩, hcover⟩
  · obtain ⟨cs, hcs⟩ := hcover n hn
    refine ⟨cs, hchain n cs hcs, fun hfile => ?_⟩
    exact (hnodes _ hcs).1.2.resolve_left (by simp [hfile])
  · obtain ⟨cs', hn'⟩ := hcover n hn
    obtain ⟨ds', hm'⟩ := hcover m hm
    obtain rfl := owns_functional hcs (hchain n cs' hn')
    obtain rfl := owns_functional hds (hchain m ds' hm')
    intro c hc hd
    rcases hdisjoint _ hn' _ hm' with heq | ⟨_, hall⟩
    · exact hne (congrArg Prod.fst heq)
    · have := hall c hc
      rw [← Bool.not_eq_true, List.contains_iff_mem] at this
      exact this hd

end View

end DBolOS.Fat
