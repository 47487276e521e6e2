import DBolOS.Fat.FileRuns

/-!
# What a call leaves of the other files

A write or a truncation rewrites the record of its file under the name it had, and leaves the other records as they were
(`Volume.RewritesRecord`).  The entry that the call hands back is the record that is stored, whether it succeeds or not.
-/

namespace DBolOS.Fat

open Tape

namespace Volume

variable {v w : Volume} {ch ch' : Option Loc → List Nat} {σ : Store Loc UInt8} {q : Option Loc} {l : Loc}
  {e p : DirEntry} {offset size : Nat} {bs : List UInt8}

/-- The record in `l` is `e`, every file is still where it was, and the other records are the same. -/
structure RewritesRecord (v w : Volume) (l : Loc) (e : DirEntry) : Prop where
  slot : w.view.slot l = e
  fileAt : ∀ q l' p, v.FileAt q l' p → w.FileAt q l' p
  others : ∀ q l' p, v.FileAt q l' p → l' ≠ l → w.view.slot l' = v.view.slot l'

private theorem RewritesRecord.refl (v : Volume) (l : Loc) : v.RewritesRecord v l (v.view.slot l) :=
  ⟨rfl, fun _ _ _ h => h, fun _ _ _ _ _ => rfl⟩

/-- A change of one file that keeps all of its record but the size. -/
private theorem RewritesRecord.of_change (h : v.view.Tree ch) (hl : v.IsFile l)
    (hchange : v.view.FileChange w.view ch ch' l)
    (hresize : w.view.slot l = (v.view.slot l).resize size) : v.RewritesRecord w l ((v.view.slot l).resize size) := by
  have hfs := hchange.fs
  have hdir : ∀ q l' p, v.FileAt q l' p → q ≠ some l := by
    rintro q l' p hf rfl
    have hdir := hf.dir
    rw [View.dirent_some, hl.2] at hdir
    cases hdir
  have hothers : ∀ q l' p, v.FileAt q l' p → ∀ l'' ∈ v.view.locs (ch q), l'' ≠ l → w.view.slot l'' = v.view.slot l'' :=
    fun q l' p hf => hchange.dir q hf.node hf.dir
  have hmem : ∀ q l' p, v.FileAt q l' p → l' ∈ v.view.locs (ch q) := fun q l' p hf => (hf.node_file h).2
  refine ⟨hresize, fun q l' p hf => ?_, fun q l' p hf hne => hothers q l' p hf l' (hmem q l' p hf) hne⟩
  have hdirent : w.view.dirent q = v.view.dirent q := hchange.dirent h hf.node (hdir q l' p hf)
  have howns : ∀ cs, w.view.Owns q cs → cs = ch q := by
    intro cs hcs
    rw [View.owns_functional hcs (hchange.tree.owns q ((hchange.node q).2 hf.node)), hchange.chain q (hdir q l' p hf)]
  have hname : ∀ l'' ∈ v.view.locs (ch q), (w.view.slot l'').nameStr = (v.view.slot l'').nameStr := by
    intro l'' hl''
    by_cases hne : l'' = l
    · rw [hne, hresize]
      rfl
    · rw [hothers q l' p hf l'' hl'' hne]
  refine ⟨(hchange.node q).2 hf.node, by rw [hdirent]; exact hf.dir, by rw [hdirent]; exact hf.parent, ?_, ?_, ?_, ?_⟩
  · by_cases hne : l' = l
    · rw [hne, hresize]
      exact hne ▸ hf.entry
    · rw [hothers q l' p hf l' (hmem q l' p hf) hne]
      exact hf.entry
  · by_cases hne : l' = l
    · rw [hne]
      exact hchange.kind
    · rw [hothers q l' p hf l' (hmem q l' p hf) hne]
      exact hf.file
  · intro cs hcs
    rw [howns cs hcs, View.locs_congr hfs]
    exact hmem q l' p hf
  · intro cs hcs l'' hl'' heq
    rw [howns cs hcs, View.locs_congr hfs] at hl''
    rw [hname l'' hl'', hname l' (hmem q l' p hf)] at heq
    exact hf.unique _ (h.owns q hf.node) l'' hl'' heq

private theorem RewritesRecord.of_same (h : v.view.Tree ch) (hl : v.IsFile l)
    (hchange : v.view.FileChange w.view ch ch' l)
    (hslot : w.view.slot l = v.view.slot l) : v.RewritesRecord w l (v.view.slot l) := by
  have hself : (v.view.slot l).resize (v.view.slot l).fileSize.toNat = v.view.slot l := resize_self _ rfl
  have hrewrites := RewritesRecord.of_change h hl hchange (hslot.trans hself.symm)
  rwa [hself] at hrewrites

private theorem RewritesRecord.of_grown {ds : List Nat} (h : v.view.Tree ch) (hl : v.IsFile l)
    (hgrown : v.view.Grown w.view ch (some l) ds) : v.RewritesRecord w l (v.view.slot l) := by
  refine .of_same h hl (hgrown.fileChange hl.1 hl.2) ?_
  simpa only [View.dirent_some] using hgrown.dirent _ hl.1

/-- A write hands back the record that is stored. -/
theorem fatWrite_rewritesRecord {r : Int} (hs : v.fs.Sound) (h : v.view.Tree ch) (hf : v.FileAt q l p)
    (hroom : offset + bs.length < 2 ^ 32) (hret : bs.length < 2 ^ 31)
    (hcall : v.fatWrite (v.view.slot l) p offset bs = some (r, e, w)) : v.RewritesRecord w l e := by
  have hl := hf.isFile h
  obtain ⟨hln, hmem⟩ := hf.node_file h
  obtain ⟨r', e', w', ch', hcall', hchange, hr⟩ := fatWrite_spec hs h hln rfl hf.file hf.node hf.dir hmem
    hf.parent hroom fun hgrow => hf.finds h hroom hgrow.ne'
  rw [hcall] at hcall'
  obtain ⟨rfl, heq⟩ := Prod.mk.inj (Option.some.inj hcall')
  obtain ⟨rfl, rfl⟩ := Prod.mk.inj heq
  rcases hr with rfl | ⟨-, he, hslot, -⟩
  · obtain ⟨rfl, rfl | ⟨ds, hgrown⟩⟩ := fatWrite_fails hs h hf hroom hret hcall
    · exact .refl w l
    · exact .of_grown h hl hgrown
  · rw [he] at hslot ⊢
    exact .of_change h hl hchange hslot

/-- A truncation hands back the record that is stored, where the attribute of the file ends its name; only one that grows
the file can fail. -/
theorem fatTruncate_rewritesRecord {r : Int} {file : FileData} (hs : v.fs.Sound) (h : v.view.Tree ch) (hf : v.FileAt q l p)
    (hsize : size < 2 ^ 32) (hone : size < (v.view.slot l).fileSize.toNat → (ch (some l)).length = 1)
    (hattr : (v.view.slot l).attr = 0) (hcall : v.fatTruncate ⟨v.view.slot l, p⟩ size = some (r, file, w)) :
    file.parentEntry = p ∧ v.RewritesRecord w l file.fileEntry ∧ (r = 0 → file.fileEntry.fileSize.toNat = size) ∧
      (r ≠ 0 → (v.view.slot l).fileSize.toNat < size) := by
  have hl := hf.isFile h
  have hof : ∀ {r' : Int} {file' : FileData} {w' : Volume},
      v.fatTruncate ⟨v.view.slot l, p⟩ size = some (r', file', w') → r = r' ∧ file = file' ∧ w = w' := by
    intro r' file' w' hcall'
    rw [hcall] at hcall'
    obtain ⟨hr, heq⟩ := Prod.mk.inj (Option.some.inj hcall')
    exact ⟨hr, Prod.mk.inj heq⟩
  rcases Nat.lt_trichotomy size (v.view.slot l).fileSize.toNat with hcut | heq | hgrow
  · rcases fatTruncate_cut_cases hs h hf hcut (hone hcut) with ⟨_, _, -, -, -, hne⟩ | ⟨w', hcall', hchange, hslot, -⟩
    · exact absurd hattr hne
    · obtain ⟨rfl, rfl, rfl⟩ := hof hcall'
      exact ⟨rfl, .of_change h hl hchange hslot, fun _ => toNat_resize hsize, fun hne => absurd rfl hne⟩
  · have hsame : v.fatTruncate ⟨v.view.slot l, p⟩ size = some (0, ⟨v.view.slot l, p⟩, v) := by
      rw [fatTruncate, if_neg (by simp [hf.file]), if_neg heq.not_lt, if_neg heq.not_gt]
    obtain ⟨rfl, rfl, rfl⟩ := hof hsame
    exact ⟨rfl, .refl w l, fun _ => heq.symm, fun hne => absurd rfl hne⟩
  · rcases fatTruncate_grow_cases hs h hf hsize hgrow with
      ⟨file', w', ds, hcall', hgrown, hfile⟩ | ⟨w', ch', extra, hcall', hchange, hslot, -⟩
    · obtain ⟨hr, rfl, rfl⟩ := hof hcall'
      rw [hfile hattr]
      exact ⟨rfl, .of_grown h hl hgrown, fun hzero => absurd (hr.symm.trans hzero) (by decide), fun _ => hgrow⟩
    · obtain ⟨-, rfl, rfl⟩ := hof hcall'
      exact ⟨rfl, .of_change h hl hchange hslot, fun _ => toNat_resize hsize, fun _ => hgrow⟩

end Volume

end DBolOS.Fat
