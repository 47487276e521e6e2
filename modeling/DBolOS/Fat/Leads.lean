import DBolOS.Fat.Create

/-!
# Paths through entries

A list of names leads from one entry to another when each name is that of an entry in the directory before it.  The kernel
resolves such a path to the record of the last entry, and a new entry or a change to a file leads it nowhere else.
-/

namespace DBolOS.Fat

namespace View

/-- The names lead from one entry to the other. -/
inductive Leads (s : View) : Option Loc → List (List UInt8) → Option Loc → Prop
  | here (n : Option Loc) : Leads s n [] n
  | step {p n : Option Loc} {cs : List Nat} {l : Loc} {name : List UInt8} {names : List (List UInt8)}
      (hdir : (s.dirent p).isDirectory) (hcs : s.Owns p cs) (hname : name ≠ []) (hnul : NoNul name)
      (hlen : name.length ≤ filenameSize)
      (hl : (s.locs cs).find? (fun l' => (s.slot l').answersTo name) = some l) (he : (s.slot l).isEntry)
      (h : Leads s (some l) names n) : Leads s p (name :: names) n

variable {s s' : View} {ch ch' : Option Loc → List Nat} {p q n : Option Loc} {ds : List Nat} {l : Loc} {e : DirEntry}
  {f : Nat} {names : List (List UInt8)}

private theorem Tree.leads_cons (h : s.Tree ch) {name : List UInt8} (hp : Node s p)
    (hleads : s.Leads p (name :: names) n) :
    ∃ l', s.Child ch p l' ∧ name ≠ [] ∧ NoNul name ∧ name.length ≤ filenameSize ∧
      (s.locs (ch p)).find? (fun l' => (s.slot l').answersTo name) = some l' ∧ s.Leads (some l') names n := by
  cases hleads with
  | step hdir hcs hname hnul hlen hl he hrest =>
    obtain rfl := owns_functional hcs (h.owns p hp)
    exact ⟨_, ⟨hdir, List.mem_of_find?_eq_some hl, he⟩, hname, hnul, hlen, hl, hrest⟩

theorem answersTo_eq_false {name : List UInt8} (h : e.nameStr ≠ name) : e.answersTo name = false := by
  simp [DirEntry.answersTo, h]

/-- The slot of the new entry lies in its directory only. -/
theorem Added.not_mem (ha : s.Added s' ch ch' q ds l e f) (hq : Node s q) (hp : Node s p) (hpq : p ≠ q) :
    l ∉ s.locs (ch p) := by
  have hlocs := locs_congr ha.fs
  have hne : ∀ n, Node s n → n ≠ some l := by
    rintro n hn rfl
    exact ha.new hn
  intro hmem
  refine hpq (ha.tree.owner_unique (l := l) ((ha.node p).2 (.inl hp)) ((ha.node q).2 (.inl hq)) ?_ ?_)
  · rwa [hlocs, ha.chain p (hne p hp), Function.update_of_ne hpq]
  · rw [hlocs, ha.chain q (hne q hq), Function.update_self]
    exact ha.mem

/-- A search for a name finds what it found before the new entry was stored. -/
theorem Added.find? (ha : s.Added s' ch ch' q ds l e f) (hq : Node s q) (hp : Node s p) {name : List UInt8} {l' : Loc}
    (hname : name ≠ []) (hnew : ∀ l'' ∈ s.locs (ch q), (s.slot l'').answersTo e.nameStr = false)
    (hfind : (s.locs (ch p)).find? (fun l'' => (s.slot l'').answersTo name) = some l') :
    (s'.locs (ch' p)).find? (fun l'' => (s'.slot l'').answersTo name) = some l' := by
  have hlocs := locs_congr ha.fs
  have hpl : p ≠ some l := by
    rintro rfl
    exact ha.new hp
  -- the test has the value it had on every slot of the old chain
  have hsame : (s.locs (ch p)).find? (fun l'' => (s'.slot l'').answersTo name) = some l' := by
    rw [← hfind]
    refine List.find?_congr fun l'' hl'' => ?_
    by_cases hl : l'' = l
    · subst hl
      by_cases hpq : p = q
      · subst hpq
        have hunused : (s.slot l'').nameStr = [] := by simpa [DirEntry.unused] using ha.free hl''
        have hold : (s.slot l'').answersTo name = false := answersTo_eq_false (by rw [hunused]; exact Ne.symm hname)
        rw [hold, ha.slot, answersTo_eq_false]
        rintro rfl
        have hans := List.find?_some (p := fun l'' => (s.slot l'').answersTo e.nameStr) hfind
        rw [hnew l' (List.mem_of_find?_eq_some hfind)] at hans
        cases hans
      · exact absurd hl'' (ha.not_mem hq hp hpq)
    · rw [ha.keep p hp l'' hl'' hl]
  rw [ha.chain p hpl, hlocs]
  by_cases hpq : p = q
  · subst hpq
    rw [Function.update_self, locs_append, List.find?_append, hsame, Option.some_or]
  · rw [Function.update_of_ne hpq, hsame]

/-- A path leads where it led before the new entry. -/
theorem Leads.added (h : s.Tree ch) (ha : s.Added s' ch ch' q ds l e f) (hq : Node s q) (hp : Node s p)
    (hnew : ∀ l' ∈ s.locs (ch q), (s.slot l').answersTo e.nameStr = false) (hleads : s.Leads p names n) :
    s'.Leads p names n := by
  induction names generalizing p with
  | nil =>
    cases hleads
    exact .here _
  | cons name names ih =>
    obtain ⟨l', hl', hname, hnul, hlen, hfind, hrest⟩ := h.leads_cons hp hleads
    have hp' : Node s' p := (ha.node p).2 (.inl hp)
    have hn' : Node s (some l') := h.node_child hp hl'
    refine .step ?_ (ha.tree.owns p hp') hname hnul hlen (ha.find? hq hp hname hnew hfind) ?_ (ih hn' hrest)
    · rw [ha.dirent h hp]
      exact hl'.dir
    · have := ha.dirent h hn'
      rw [dirent_some, dirent_some] at this
      rw [this]
      exact hl'.entry

/-- A path leads where it led before a change to a file that keeps its name and its attribute. -/
theorem Leads.fileChange (h : s.Tree ch) (hc : s.FileChange s' ch ch' l) (hp : Node s p)
    (hkind : (s.slot l).isDirectory = false) (hname : (s'.slot l).nameStr = (s.slot l).nameStr)
    (hattr : (s'.slot l).attr = (s.slot l).attr) (hleads : s.Leads p names n) : s'.Leads p names n := by
  have hlocs := locs_congr hc.fs
  have hslot : ∀ p, Node s p → (s.dirent p).isDirectory → ∀ l' ∈ s.locs (ch p),
      (s'.slot l').nameStr = (s.slot l').nameStr ∧ (s'.slot l').attr = (s.slot l').attr := by
    intro p hp hdir l' hl'
    by_cases hl : l' = l
    · rw [hl]
      exact ⟨hname, hattr⟩
    · rw [hc.dir p hp hdir l' hl' hl]
      exact ⟨rfl, rfl⟩
  induction names generalizing p with
  | nil =>
    cases hleads
    exact .here _
  | cons name names ih =>
    obtain ⟨l', hl', hne, hnul, hlen, hfind, hrest⟩ := h.leads_cons hp hleads
    have hpl : p ≠ some l := by
      rintro rfl
      have := hl'.dir
      rw [dirent_some, hkind] at this
      cases this
    refine .step ?_ (hc.tree.owns p ((hc.node p).2 hp)) hne hnul hlen ?_ ?_ (ih (h.node_child hp hl') hrest)
    · rw [hc.dirent h hp hpl]
      exact hl'.dir
    · rw [hc.chain p hpl, hlocs, ← hfind]
      refine List.find?_congr fun l'' hl'' => ?_
      obtain ⟨hnames, hattrs⟩ := hslot p hp hl'.dir l'' hl''
      rw [DirEntry.answersTo, DirEntry.answersTo, hnames, hattrs]
    · have hentry := hl'.entry
      rw [DirEntry.isEntry] at hentry ⊢
      rwa [(hslot p hp hl'.dir l' hl'.mem).1]

theorem Leads.node (h : s.Tree ch) (hp : Node s p) (hleads : s.Leads p names n) : Node s n := by
  induction names generalizing p with
  | nil =>
    cases hleads
    exact hp
  | cons name names ih =>
    obtain ⟨l', hl', _, _, _, _, hrest⟩ := h.leads_cons hp hleads
    exact ih (h.node_child hp hl') hrest

end View

variable {v : Volume} {p n : Option Loc} {names : List (List UInt8)}

/-- The lookup of a name in the directory of an entry. -/
theorem Volume.fatFindDirEntry_of_find {name : List UInt8} {dir : DirEntry} {cs : List Nat} {l : Loc}
    (hs : v.fs.Sound) (h : v.view.Chain dir.startCluster.toNat cs) (hnul : NoNul name)
    (hlen : name.length ≤ filenameSize)
    (hfind : (v.view.locs cs).find? (fun l' => (v.view.slot l').answersTo name) = some l) :
    v.fatFindDirEntry (subName name) dir = some (some (v.view.slot l)) := by
  rw [fatFindDirEntry_spec hs h hnul hlen, firstSlot, hfind]
  rfl

/-- The lookups along the names end at the record of the last entry. -/
private theorem walk_of_leads (hs : v.fs.Sound) (h : v.view.Leads p names n) :
    walk v (v.view.dirent p) names = some (.ok (v.view.dirent n)) := by
  induction h with
  | here n => rfl
  | @step p n cs l name names hdir hcs hname hnul hlen hl he _ ih =>
    have hfind := Volume.fatFindDirEntry_of_find hs hcs hnul hlen hl
    rw [walk, if_neg (Nat.not_lt.2 hlen), if_neg (by simp [hdir]), hfind]
    exact ih

/-- The kernel resolves a path whose segments lead to an entry to its record. -/
theorem fatFindDirEntryFromPath_of_leads (hs : v.fs.Sound) {t : List UInt8} (ht : t ≠ [])
    (h : v.view.Leads none (segments t) n) :
    fatFindDirEntryFromPath v (slash :: t) = some (.ok (v.view.dirent n)) := by
  rw [fatFindDirEntryFromPath_slash v ht]
  exact walk_of_leads hs h

end DBolOS.Fat
