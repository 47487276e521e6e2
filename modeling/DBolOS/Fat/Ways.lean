import DBolOS.Fat.Leads
import DBolOS.Fat.Records

/-!
# Ways through records

The kernel follows a path from record to record, through the aliases `.` and `..` as through entries.  As long as each
record stands for an entry of the tree, a new entry and a record rewritten under its name leave the way (`Way.added`,
`Way.rewrite`).
-/

namespace DBolOS.Fat

open Linked

/-- The record `r'` is `r`, up to the size when `r` is `x`. -/
def DirEntry.Resized (x r r' : DirEntry) : Prop := { r' with fileSize := r.fileSize } = r ∧ (r ≠ x → r' = r)

theorem DirEntry.Resized.refl (x r : DirEntry) : Resized x r r := ⟨rfl, fun _ => rfl⟩

theorem DirEntry.Resized.kind {x r r' : DirEntry} (h : Resized x r r') : r'.isDirectory = r.isDirectory := by
  rw [← h.1]
  rfl

theorem DirEntry.Resized.start {x r r' : DirEntry} (h : Resized x r r') : r'.startCluster = r.startCluster := by
  rw [← h.1]

namespace View

open DirEntry (Resized)

/-- The record has the kind and the clusters of the entry `n`. -/
structure StandsFor (s : View) (r : DirEntry) (n : Option Loc) : Prop where
  node : Node s n
  kind : r.isDirectory = (s.dirent n).isDirectory
  start : r.startCluster = (s.dirent n).startCluster

/-- Each name finds a record in the directory before it, and the record stands for an entry. -/
inductive Way (s : View) : DirEntry → List (List UInt8) → DirEntry → Prop
  | here (r : DirEntry) : Way s r [] r
  | step {r r' : DirEntry} {n : Option Loc} {cs : List Nat} {l : Loc} {name : List UInt8} {names : List (List UInt8)}
      (hdir : r.isDirectory) (hcs : s.Chain r.startCluster.toNat cs) (hname : name ≠ []) (hnul : NoNul name)
      (hlen : name.length ≤ filenameSize)
      (hl : (s.locs cs).find? (fun l' => (s.slot l').answersTo name) = some l) (hn : s.StandsFor (s.slot l) n)
      (h : Way s (s.slot l) names r') : Way s r (name :: names) r'

variable {s s' : View} {ch ch' : Option Loc → List Nat} {p q n : Option Loc} {r r' : DirEntry} {ds : List Nat} {l : Loc}
  {e : DirEntry} {f : Nat} {name : List UInt8} {names names' : List (List UInt8)}

theorem Node.standsFor (h : Node s n) : s.StandsFor (s.dirent n) n := ⟨h, rfl, rfl⟩

theorem StandsFor.chain (hr : s.StandsFor r p) (h : s.Tree ch) : s.Chain r.startCluster.toNat (ch p) := by
  rw [hr.start]
  exact h.owns p hr.node

/-- A record stands for one entry. -/
theorem StandsFor.unique (hp : s.StandsFor r p) (hq : s.StandsFor r q) (h : s.Tree ch) : p = q := by
  by_contra hne
  have hsame := Chain.functional s.terminates (hp.chain h) (hq.chain h)
  obtain ⟨t, ht⟩ := (hp.chain h).exists_cons
  refine h.disjoint p q hp.node hq.node hne (a := r.startCluster.toNat) ?_ ?_
  · rw [ht]
    exact List.mem_cons_self
  · rw [← hsame, ht]
    exact List.mem_cons_self

/-- A record of an entry stands for that entry. -/
theorem StandsFor.child (hr : s.StandsFor r p) (h : s.Tree ch) (hdir : r.isDirectory) (hl : l ∈ s.locs (ch p))
    (he : (s.slot l).isEntry) : s.StandsFor (s.slot l) (some l) :=
  (h.node_child hr.node ⟨hr.kind ▸ hdir, hl, he⟩).standsFor

/-- The first step of a way. -/
theorem Tree.way_cons (h : s.Tree ch) (hr : s.StandsFor r p) (hway : s.Way r (name :: names) r') :
    ∃ l n, r.isDirectory ∧ name ≠ [] ∧ NoNul name ∧ name.length ≤ filenameSize ∧
      (s.locs (ch p)).find? (fun l' => (s.slot l').answersTo name) = some l ∧ s.StandsFor (s.slot l) n ∧
      s.Way (s.slot l) names r' := by
  cases hway with
  | step hdir hcs hname hnul hlen hl hn hrest =>
    obtain rfl := Chain.functional s.terminates hcs (hr.chain h)
    exact ⟨_, _, hdir, hname, hnul, hlen, hl, hn, hrest⟩

theorem Way.standsFor (hway : s.Way r names r') (hr : s.StandsFor r p) : ∃ n, s.StandsFor r' n := by
  induction hway generalizing p with
  | here => exact ⟨p, hr⟩
  | step _ _ _ _ _ _ hn _ ih => exact ih hn

/-- The names on the way are not empty. -/
theorem Way.ne_nil (hway : s.Way r names r') : ∀ name ∈ names, name ≠ [] := by
  induction hway with
  | here => simp
  | step _ _ hname _ _ _ _ _ ih =>
    intro name hmem
    rcases List.mem_cons.1 hmem with rfl | hmem
    · exact hname
    · exact ih name hmem

/-- Ways that follow each other. -/
theorem Way.append {r₀ : DirEntry} (h : s.Way r₀ names r) (h' : s.Way r names' r') : s.Way r₀ (names ++ names') r' := by
  induction h with
  | here => exact h'
  | step hdir hcs hname hnul hlen hl hn _ ih => exact .step hdir hcs hname hnul hlen hl hn (ih h')

/-- A way cut in two. -/
theorem Way.split (h : s.Way r (names ++ names') r') : ∃ r₁, s.Way r names r₁ ∧ s.Way r₁ names' r' := by
  induction names generalizing r with
  | nil => exact ⟨r, .here r, h⟩
  | cons name names ih =>
    rw [List.cons_append] at h
    cases h with
    | step hdir hcs hname hnul hlen hl hn h =>
      obtain ⟨r₁, hr₁, hr'⟩ := ih h
      exact ⟨r₁, .step hdir hcs hname hnul hlen hl hn hr₁, hr'⟩

/-- A directory is found under a name of less than 11 bytes. -/
theorem Way.short (hway : s.Way r names r') (hne : names ≠ []) (hdir : r'.isDirectory) :
    r'.nameStr.length < filenameSize := by
  obtain ⟨names, name, rfl⟩ := (List.eq_nil_or_concat names).resolve_left hne
  obtain ⟨r₁, -, hlast⟩ := (List.concat_eq_append ▸ hway).split
  cases hlast with
  | step _ _ _ _ hlen hl _ hrest =>
    cases hrest
    obtain ⟨hname, hattr⟩ := of_decide_eq_true (List.find?_some (p := fun l' => (s.slot l').answersTo name) hl)
    rw [hname]
    refine lt_of_le_of_ne hlen fun h11 => ?_
    rw [DirEntry.isDirectory, hattr h11] at hdir
    cases hdir

/-- The names of a way lead to one record. -/
theorem Way.functional {r₁ r₂ : DirEntry} (h₁ : s.Way r names r₁) (h₂ : s.Way r names r₂) : r₁ = r₂ := by
  induction h₁ with
  | here =>
    cases h₂
    rfl
  | step _ hcs _ _ _ hl _ _ ih =>
    cases h₂ with
    | step _ hcs' _ _ _ hl' _ hrest =>
      obtain rfl := Chain.functional s.terminates hcs hcs'
      rw [hl] at hl'
      obtain rfl := Option.some.inj hl'
      exact ih hrest

/-! ### Changes -/

/-- A record stands for the same entry after a new one was stored. -/
theorem StandsFor.added (hr : s.StandsFor r p) (h : s.Tree ch) (ha : s.Added s' ch ch' q ds l e f) :
    s'.StandsFor r p := by
  have hdirent := ha.dirent h hr.node
  exact ⟨(ha.node p).2 (.inl hr.node), by rw [hdirent, hr.kind], by rw [hdirent, hr.start]⟩

/-- A way goes where it went before the new entry. -/
theorem Way.added (hway : s.Way r names r') (h : s.Tree ch) (ha : s.Added s' ch ch' q ds l e f) (hq : Node s q)
    (hr : s.StandsFor r p) (hnew : ∀ l' ∈ s.locs (ch q), (s.slot l').answersTo e.nameStr = false) :
    s'.Way r names r' := by
  induction names generalizing r p with
  | nil =>
    cases hway
    exact .here _
  | cons name names ih =>
    obtain ⟨l', n, hdir, hname, hnul, hlen, hfind, hn, hrest⟩ := h.way_cons hr hway
    have hmem := List.mem_of_find?_eq_some hfind
    -- the new entry took an unused slot, which answers to no name
    have hne : l' ≠ l := by
      rintro rfl
      by_cases hpq : p = q
      · subst hpq
        have hunused : (s.slot l').nameStr = [] := by simpa [DirEntry.unused] using ha.free hmem
        have hans := List.find?_some (p := fun l'' => (s.slot l'').answersTo name) hfind
        rw [DirEntry.answersTo, decide_eq_true_iff, hunused] at hans
        exact hname hans.1.symm
      · exact ha.not_mem hq hr.node hpq hmem
    have hslot : s'.slot l' = s.slot l' := ha.keep p hr.node l' hmem hne
    refine .step (n := n) hdir ((hr.added h ha).chain ha.tree) hname hnul hlen (ha.find? hq hr.node hname hnew hfind) ?_ ?_
    · rw [hslot]
      exact hn.added h ha
    · rw [hslot]
      exact ih hrest hn

section Rewrite

variable {k : UInt32} (hs : s.Sized) (hc : l.1 < s.fat.length) (hi : l.2 < s.fs.slotsPerCluster)
include hs hc hi

/-- The slots after the size in the record `l` was rewritten. -/
private theorem resized_slot (l' : Loc) :
    Resized (s.slot l) (s.slot l') ((s.putSlot l { s.slot l with fileSize := k }).slot l') := by
  by_cases hl : l' = l
  · rw [hl, slot_putSlot_self hs _ hc hi]
    exact ⟨rfl, fun hne => absurd rfl hne⟩
  · rw [slot_putSlot_of_ne hs _ hc hi hl]
    exact .refl _ _

private theorem Node.rewrite (h : Node s n) : Node (s.putSlot l { s.slot l with fileSize := k }) n := by
  induction h with
  | root => exact .root
  | @child p cs l' hp hdir hcs hl he ih =>
    obtain ⟨hattr, hstart⟩ := @dirent_putSlot s l { s.slot l with fileSize := k } hs hc hi rfl rfl p
    have hname : ((s.putSlot l { s.slot l with fileSize := k }).slot l').nameStr = (s.slot l').nameStr := by
      rw [← (resized_slot hs hc hi l' (k := k)).1]
      rfl
    have howns : Owns (s.putSlot l { s.slot l with fileSize := k }) p cs := by
      rw [Owns, hstart]
      exact hcs
    refine .child ih ?_ howns hl ?_
    · rw [DirEntry.isDirectory, hattr]
      exact hdir
    · rw [DirEntry.isEntry, hname]
      exact he

private theorem StandsFor.rewrite (h : s.StandsFor r n) (hr : Resized (s.slot l) r r') :
    (s.putSlot l { s.slot l with fileSize := k }).StandsFor r' n := by
  obtain ⟨hattr, hstart⟩ := @dirent_putSlot s l { s.slot l with fileSize := k } hs hc hi rfl rfl n
  refine ⟨h.node.rewrite hs hc hi, ?_, ?_⟩
  · rw [hr.kind, h.kind, DirEntry.isDirectory, DirEntry.isDirectory, hattr]
  · rw [hr.start, h.start, hstart]

/-- A way goes to the same record, up to its size, after the size in one record was rewritten. -/
theorem Way.rewrite {a b a' : DirEntry} (h : s.Way a names b) (ha : Resized (s.slot l) a a') :
    ∃ b', (s.putSlot l { s.slot l with fileSize := k }).Way a' names b' ∧ Resized (s.slot l) b b' := by
  induction h generalizing a' with
  | here => exact ⟨a', .here a', ha⟩
  | @step r r' n cs l' name names hdir hcs hname hnul hlen hl hn _ ih =>
    have hslot := resized_slot hs hc hi l' (k := k)
    obtain ⟨b', hway, hb'⟩ := ih hslot
    have hchain : (s.putSlot l { s.slot l with fileSize := k }).Chain a'.startCluster.toNat cs := by
      rw [ha.start]
      exact hcs
    refine ⟨b', .step ?_ hchain hname hnul hlen ?_ (hn.rewrite hs hc hi hslot) hway, hb'⟩
    · rw [ha.kind]
      exact hdir
    · rw [← hl]
      refine List.find?_congr fun l'' _ => ?_
      rw [← (resized_slot hs hc hi l'' (k := k)).1]
      rfl

end Rewrite

end View

variable {v : Volume} {r r' : DirEntry} {names : List (List UInt8)}

/-- The lookups along a way, and what is looked up behind it. -/
theorem walk_append_of_way (hs : v.fs.Sound) (h : v.view.Way r names r') (rest : List (List UInt8)) :
    walk v r (names ++ rest) = walk v r' rest := by
  induction h with
  | here => rfl
  | step hdir hcs hname hnul hlen hl _ _ ih =>
    have hfind := Volume.fatFindDirEntry_of_find hs hcs hnul hlen hl
    rw [List.cons_append, walk, if_neg (Nat.not_lt.2 hlen), if_neg (by simp [hdir]), hfind]
    exact ih

theorem walk_of_way (hs : v.fs.Sound) (h : v.view.Way r names r') : walk v r names = some (.ok r') := by
  have hwalk := walk_append_of_way hs h []
  rwa [List.append_nil] at hwalk

end DBolOS.Fat
