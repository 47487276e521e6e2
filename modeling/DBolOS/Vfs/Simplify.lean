import DBolOS.Fat.Resolve
import DBolOS.Lib.Lexical
import DBolOS.Vfs.Paths

/-!
# What `simplify_path` makes of a path

The components between the slashes of a path name a place.  `simplify_path` gives a path in normal form with the same
place for every relative path but the empty one.  It puts an empty component in front of those of an absolute path, and
what it gives for one is in normal form, and stays as it is, for a path to the root alone (`canonical_iff`).
-/

namespace DBolOS.Vfs

open Fat (slash dot)
open Lexical (Move Place)

/-! ### The place that a path names -/

def moveOf (comp : List UInt8) : Move (List UInt8) :=
  if comp = [] ∨ comp = [dot] then .here else if comp = [dot, dot] then .up else .name comp

/-- Whether the path is absolute, and the place that its components lead to. -/
def lexical (path : List UInt8) : Bool × Place (List UInt8) :=
  (decide (path.head? = some slash),
    Lexical.eval (decide (path.head? = some slash)) ((path.splitOn slash).map moveOf))

/-- A component that is a name. -/
structure IsName (comp : List UInt8) : Prop where
  ne_nil : comp ≠ []
  ne_dot : comp ≠ [dot]
  ne_dots : comp ≠ [dot, dot]
  slash : slash ∉ comp

private theorem IsName.moveOf {comp : List UInt8} (h : IsName comp) : moveOf comp = .name comp := by
  rw [Vfs.moveOf, if_neg (not_or.2 ⟨h.ne_nil, h.ne_dot⟩), if_neg h.ne_dots]

private theorem moveOf_eq_name {comp a : List UInt8} (h : moveOf comp = .name a) :
    comp = a ∧ a ≠ [] ∧ a ≠ [dot] ∧ a ≠ [dot, dot] := by
  unfold moveOf at h
  split at h
  · cases h
  rename_i hhere
  split at h
  · cases h
  rename_i hup
  cases h
  rw [not_or] at hhere
  exact ⟨rfl, hhere.1, hhere.2, hup⟩

private theorem slash_not_mem_of_mem_splitOn {comp path : List UInt8} (h : comp ∈ path.splitOn slash) :
    slash ∉ comp := by
  induction path generalizing comp with
  | nil =>
    rw [List.splitOn_nil, List.mem_singleton] at h
    simp [h]
  | cons b path ih =>
    rw [List.splitOn_cons_eq_if_modifyHead] at h
    split at h
    · rcases List.mem_cons.1 h with rfl | h
      · simp
      · exact ih h
    · rename_i hb
      obtain ⟨x, xs, hx⟩ := List.exists_cons_of_ne_nil (List.splitOn_ne_nil slash path)
      rw [hx, List.modifyHead_cons] at h
      rcases List.mem_cons.1 h with rfl | h
      · have hslash : slash ∉ x := ih (by rw [hx]; simp)
        simp only [List.mem_cons, not_or]
        exact ⟨fun h => hb (by simp [h]), hslash⟩
      · exact ih (by rw [hx]; simp [h])

theorem isName_of_mem_lexical {path a : List UInt8} (h : a ∈ (lexical path).2.names) : IsName a := by
  obtain ⟨comp, hcomp, hpart⟩ := List.mem_map.1 (Lexical.mem_names_eval h)
  obtain ⟨rfl, hnil, hdot, hdots⟩ := moveOf_eq_name hpart
  exact ⟨hnil, hdot, hdots, slash_not_mem_of_mem_splitOn hcomp⟩

private theorem foldl_filter (rooted : Bool) (comps : List (List UInt8)) (p : Place (List UInt8)) :
    (comps.map moveOf).foldl (Place.step rooted) p =
      ((comps.filter (· ≠ [])).map moveOf).foldl (Place.step rooted) p := by
  induction comps generalizing p with
  | nil => rfl
  | cons comp comps ih =>
    by_cases hnil : comp = []
    · rw [List.filter_cons_of_neg (by simp [hnil]), ← ih, hnil]
      rfl
    · rw [List.filter_cons_of_pos (by simp [hnil]), List.map_cons, List.map_cons, List.foldl_cons, List.foldl_cons, ih]

/-! ### The stack -/

/-- The components that lead to a place. -/
def texts (p : Place (List UInt8)) : List (List UInt8) := List.replicate p.ups [dot, dot] ++ p.names.reverse

/-- On a relative path the stack holds what leads to the place so far. -/
private theorem pushComponent_relative {p : Place (List UInt8)} {comp : List UInt8} (hp : ∀ a ∈ p.names, a ≠ [dot, dot])
    (hnil : comp ≠ []) :
    pushComponent false (texts p).reverse comp = (texts (p.step false (moveOf comp))).reverse := by
  obtain ⟨ups, names⟩ := p
  have htexts : ∀ names : List (List UInt8), (texts ⟨ups, names⟩).reverse = names ++ List.replicate ups [dot, dot] := by
    intro names
    rw [texts, List.reverse_append, List.reverse_reverse, List.reverse_replicate]
  unfold pushComponent moveOf
  by_cases hdot : comp = [dot]
  · rw [if_pos hdot, if_pos (.inr hdot)]
    rfl
  rw [if_neg hdot, if_neg (not_or.2 ⟨hnil, hdot⟩)]
  by_cases hdots : comp = [dot, dot]
  · rw [if_pos hdots, if_pos hdots, if_neg Bool.false_ne_true, htexts]
    cases names with
    | nil =>
      have hstep : Place.step false ⟨ups, []⟩ .up = (⟨ups + 1, []⟩ : Place (List UInt8)) := rfl
      rw [hstep, texts, List.nil_append, List.reverse_nil, List.append_nil, List.reverse_replicate, List.replicate_succ,
        hdots]
      cases ups with
      | zero => rfl
      | succ ups => simp [List.replicate_succ]
    | cons a names =>
      rw [List.cons_append]
      dsimp only
      rw [if_neg (hp a List.mem_cons_self)]
      exact (htexts names).symm
  · rw [if_neg hdots, if_neg hdots, htexts]
    exact (htexts (comp :: names)).symm

/-- On an absolute path the names lie over what is left of the empty component. -/
private theorem pushComponent_absolute {p : Place (List UInt8)} {comp : List UInt8} {bottom : List (List UInt8)}
    (hbottom : bottom = [] ∨ bottom = [[]]) (hnil : comp ≠ []) :
    ∃ bottom', (bottom' = [] ∨ bottom' = [[]]) ∧ (comp ≠ [dot, dot] → bottom' = bottom) ∧
      pushComponent true (p.names ++ bottom) comp = (p.step true (moveOf comp)).names ++ bottom' := by
  obtain ⟨ups, names⟩ := p
  unfold pushComponent moveOf
  by_cases hdot : comp = [dot]
  · rw [if_pos hdot, if_pos (.inr hdot)]
    exact ⟨bottom, hbottom, fun _ => rfl, rfl⟩
  rw [if_neg hdot, if_neg (not_or.2 ⟨hnil, hdot⟩)]
  by_cases hdots : comp = [dot, dot]
  · rw [if_pos hdots, if_pos hdots, if_pos rfl]
    cases names with
    | nil =>
      refine ⟨[], .inl rfl, fun h => absurd hdots h, ?_⟩
      rcases hbottom with rfl | rfl
      · rfl
      · rfl
    | cons a names => exact ⟨bottom, hbottom, fun _ => rfl, rfl⟩
  · rw [if_neg hdots, if_neg hdots]
    exact ⟨bottom, hbottom, fun _ => rfl, rfl⟩

private theorem foldl_relative {comps : List (List UInt8)} (hcomps : ∀ comp ∈ comps, comp ≠ []) {p : Place (List UInt8)}
    (hp : ∀ a ∈ p.names, a ≠ [dot, dot]) :
    comps.foldl (pushComponent false) (texts p).reverse =
      (texts ((comps.map moveOf).foldl (Place.step false) p)).reverse := by
  induction comps generalizing p with
  | nil => rfl
  | cons comp comps ih =>
    rw [List.foldl_cons, pushComponent_relative hp (hcomps comp List.mem_cons_self), ih ?_ ?_]
    · rfl
    · intro comp' hcomp'
      exact hcomps comp' (List.mem_cons_of_mem _ hcomp')
    · intro a ha
      rcases Lexical.mem_names_step ha with ha | ha
      · exact hp a ha
      · exact (moveOf_eq_name ha.symm).2.2.2

private theorem foldl_absolute {comps : List (List UInt8)} (hcomps : ∀ comp ∈ comps, comp ≠ []) {p : Place (List UInt8)}
    {bottom : List (List UInt8)} (hbottom : bottom = [] ∨ bottom = [[]]) :
    ∃ bottom', (bottom' = [] ∨ bottom' = [[]]) ∧ ([dot, dot] ∉ comps → bottom' = bottom) ∧
      comps.foldl (pushComponent true) (p.names ++ bottom) =
        ((comps.map moveOf).foldl (Place.step true) p).names ++ bottom' := by
  induction comps generalizing p bottom with
  | nil => exact ⟨bottom, hbottom, fun _ => rfl, rfl⟩
  | cons comp comps ih =>
    obtain ⟨bottom₁, hbottom₁, hkeep₁, hpush⟩ :=
      pushComponent_absolute (p := p) hbottom (hcomps comp List.mem_cons_self)
    obtain ⟨bottom₂, hbottom₂, hkeep₂, hfold⟩ :=
      ih (p := p.step true (moveOf comp)) (fun comp' h => hcomps comp' (List.mem_cons_of_mem _ h)) hbottom₁
    refine ⟨bottom₂, hbottom₂, ?_, ?_⟩
    · intro hno
      rw [List.mem_cons, not_or] at hno
      rw [hkeep₂ hno.2, hkeep₁ (Ne.symm hno.1)]
    · rw [List.foldl_cons, hpush, hfold]
      rfl

/-! ### The result -/

section Result

variable {path : List UInt8}

private theorem lexical_eq (path : List UInt8) : lexical path = (decide (path.head? = some slash),
    (((path.splitOn slash).filter (· ≠ [])).map moveOf).foldl (Place.step (decide (path.head? = some slash)))
      Place.start) := by
  rw [lexical, Lexical.eval, foldl_filter]

private theorem simplifyPath_nil : simplifyPath [] = [] := rfl

/-- A relative path is written anew from its place. -/
private theorem simplifyPath_relative (hne : path ≠ []) (hrelative : path.head? ≠ some slash) :
    simplifyPath path = if texts (lexical path).2 = [] then [dot] else [slash].intercalate (texts (lexical path).2) := by
  have hfold := @foldl_relative ((path.splitOn slash).filter (· ≠ [])) (by simp) Place.start (by simp [Place.start])
  have hempty : components path = (path.splitOn slash).filter (· ≠ []) := by
    rw [components, if_neg (not_or.2 ⟨hne, hrelative⟩)]
    rfl
  have hstart : (texts (Place.start : Place (List UInt8))).reverse = [] := rfl
  rw [hstart] at hfold
  rw [simplifyPath, lexical_eq, hempty, decide_eq_false hrelative, hfold, List.reverse_reverse]
  dsimp only
  rw [if_neg hrelative]

/-- An absolute path is written behind a slash, and behind another one unless `..` has removed the empty component. -/
theorem simplifyPath_absolute (habsolute : path.head? = some slash) :
    ∃ bottom, (bottom = [] ∨ bottom = [[]]) ∧ ([dot, dot] ∉ path.splitOn slash → bottom = [[]]) ∧
      simplifyPath path = slash :: [slash].intercalate (bottom ++ (lexical path).2.names.reverse) := by
  obtain ⟨bottom, hbottom, hkeep, hfold⟩ := @foldl_absolute ((path.splitOn slash).filter (· ≠ [])) (by simp)
    Place.start [[]] (.inr rfl)
  have hempty : components path = [] :: (path.splitOn slash).filter (· ≠ []) := by
    rw [components, if_pos (.inr habsolute)]
    rfl
  have hpush : pushComponent true [] [] = (Place.start : Place (List UInt8)).names ++ [[]] := rfl
  refine ⟨bottom, hbottom, fun hno => hkeep (fun h => hno (List.mem_filter.1 h).1), ?_⟩
  rw [simplifyPath, lexical_eq, hempty, decide_eq_true habsolute, List.foldl_cons, hpush, hfold]
  have hreverse : bottom.reverse = bottom := by
    rcases hbottom with rfl | rfl
    · rfl
    · rfl
  dsimp only
  rw [if_pos habsolute, List.reverse_append, hreverse]

private theorem noNul_intercalate {comps : List (List UInt8)} (h : ∀ comp ∈ comps, NoNul comp) :
    NoNul ([slash].intercalate comps) := by
  induction comps with
  | nil => simp [NoNul]
  | cons comp comps ih =>
    have htail := ih fun comp' h' => h comp' (List.mem_cons_of_mem _ h')
    have hcomp := h comp List.mem_cons_self
    by_cases hne : comps = []
    · rw [hne, List.intercalate_singleton]
      exact hcomp
    · rw [List.intercalate_cons_of_ne_nil hne]
      intro b hb
      rcases List.mem_append.1 hb with hb | hb
      · rcases List.mem_append.1 hb with hb | hb
        · exact hcomp b hb
        · rw [List.mem_singleton.1 hb]
          simp [slash]
      · exact htail b hb

theorem noNul_simplifyPath (hpath : NoNul path) : NoNul (simplifyPath path) := by
  have hnames : ∀ comp ∈ (lexical path).2.names, NoNul comp := by
    intro comp h
    obtain ⟨comp', hcomp', hmove⟩ := List.mem_map.1 (Lexical.mem_names_eval h)
    obtain ⟨rfl, -⟩ := moveOf_eq_name hmove
    exact hpath.mono (Fat.subset_of_mem_splitOn hcomp')
  by_cases habsolute : path.head? = some slash
  · obtain ⟨bottom, hbottom, -, hresult⟩ := simplifyPath_absolute habsolute
    have htail : NoNul ([slash].intercalate (bottom ++ (lexical path).2.names.reverse)) := by
      refine noNul_intercalate fun comp h => ?_
      rcases List.mem_append.1 h with h | h
      · rcases hbottom with rfl | rfl
        · cases h
        · rw [List.mem_singleton.1 h]
          simp [NoNul]
      · exact hnames comp (List.mem_reverse.1 h)
    rw [hresult]
    intro b hb
    rcases List.mem_cons.1 hb with rfl | hb
    · simp [slash]
    · exact htail b hb
  · by_cases hne : path = []
    · rw [hne, simplifyPath_nil]
      simp [NoNul]
    rw [simplifyPath_relative hne habsolute]
    split
    · simp [NoNul, dot]
    · refine noNul_intercalate fun comp h => ?_
      rcases List.mem_append.1 h with h | h
      · rw [List.eq_of_mem_replicate h]
        simp [NoNul, dot]
      · exact hnames comp (List.mem_reverse.1 h)

/-! ### Normal forms -/

/-- A path without the slash it starts with. -/
def belowRoot (path : List UInt8) : List UInt8 := if path.head? = some slash then path.tail else path

/-- What `simplify_path` gives is a normal form of the place that the path names. -/
structure Canonical (path : List UInt8) : Prop where
  absolute : (simplifyPath path).head? = some slash ↔ path.head? = some slash
  parts : simplifyPath path = [slash] ∨ simplifyPath path = [dot] ∨
    ∀ comp ∈ (belowRoot (simplifyPath path)).splitOn slash, comp ≠ [] ∧ comp ≠ [dot]
  dots : ∃ n names, (belowRoot (simplifyPath path)).splitOn slash = List.replicate n [dot, dot] ++ names ∧
    [dot, dot] ∉ names ∧ (path.head? = some slash → n = 0)
  start : (lexical path).2 = Place.start → simplifyPath path = if path.head? = some slash then [slash] else [dot]
  lexical : lexical (simplifyPath path) = lexical path
  idempotent : simplifyPath (simplifyPath path) = simplifyPath path

/-- The path is relative and not empty, or leads to the root. -/
def Regular (path : List UInt8) : Prop := path ≠ [] ∧ (path.head? = some slash → (lexical path).2 = Place.start)

private theorem mem_texts {p : Place (List UInt8)} (hp : ∀ a ∈ p.names, IsName a) {comp : List UInt8}
    (h : comp ∈ texts p) :
    comp ≠ [] ∧ comp ≠ [dot] ∧ slash ∉ comp := by
  rcases List.mem_append.1 h with h | h
  · rw [List.eq_of_mem_replicate h]
    simp [slash, dot]
  · have hname := hp comp (List.mem_reverse.1 h)
    exact ⟨hname.ne_nil, hname.ne_dot, hname.slash⟩

private theorem map_texts {p : Place (List UInt8)} (hp : ∀ a ∈ p.names, IsName a) : (texts p).map moveOf = p.moves := by
  rw [texts, Place.moves, List.map_append, List.map_replicate]
  congr 1
  refine List.map_congr_left fun a ha => (hp a (List.mem_reverse.1 ha)).moveOf

private theorem texts_eq_nil_iff {p : Place (List UInt8)} : texts p = [] ↔ p = Place.start := by
  obtain ⟨ups, names⟩ := p
  simp [texts, Place.start]

private theorem splitOn_texts {p : Place (List UInt8)} (hp : ∀ a ∈ p.names, IsName a) (hne : texts p ≠ []) :
    ([slash].intercalate (texts p)).splitOn slash = texts p :=
  List.splitOn_intercalate slash (fun _ h => (mem_texts hp h).2.2) hne

theorem head_intercalate {comps : List (List UInt8)} (hne : comps ≠ [])
    (hcomps : ∀ comp ∈ comps, comp ≠ [] ∧ slash ∉ comp) :
    ([slash].intercalate comps).head? ≠ some slash ∧ [slash].intercalate comps ≠ [] := by
  cases comps with
  | nil => exact absurd rfl hne
  | cons comp comps =>
    obtain ⟨hcomp, hslash⟩ := hcomps comp List.mem_cons_self
    obtain ⟨b, t, rfl⟩ := List.exists_cons_of_ne_nil hcomp
    have hhead : ∃ u, [slash].intercalate ((b :: t) :: comps) = b :: u := by
      cases comps with
      | nil => exact ⟨t, List.intercalate_singleton⟩
      | cons comp' comps => exact ⟨_, List.intercalate_cons_cons⟩
    obtain ⟨u, hu⟩ := hhead
    rw [hu]
    refine ⟨?_, List.cons_ne_nil b u⟩
    intro h
    exact hslash (Option.some.inj h ▸ List.mem_cons_self)

private theorem canonical_relative (hne : path ≠ []) (hrelative : path.head? ≠ some slash) : Canonical path := by
  have hnames : ∀ a ∈ (lexical path).2.names, IsName a := fun _ h => isName_of_mem_lexical h
  have hresult := simplifyPath_relative hne hrelative
  have hplace : lexical path = (false, (lexical path).2) := Prod.ext (decide_eq_false hrelative) rfl
  by_cases htexts : texts (lexical path).2 = []
  · rw [if_pos htexts] at hresult
    have hstart := texts_eq_nil_iff.1 htexts
    have hdot : ([dot] : List UInt8).splitOn slash = [[dot]] := rfl
    refine ⟨?_, .inr (.inl hresult), ⟨0, [[dot]], ?_, by simp, fun _ => rfl⟩, ?_, ?_, ?_⟩
    · rw [hresult]
      exact iff_of_false (by simp [slash, dot]) hrelative
    · rw [hresult]
      rfl
    · intro _
      rw [hresult, if_neg hrelative]
    · rw [hresult, hplace, hstart]
      rfl
    · rw [hresult]
      rfl
  · rw [if_neg htexts] at hresult
    have hsplit := splitOn_texts hnames htexts
    obtain ⟨hhead, hresultNe⟩ := head_intercalate htexts fun comp h => ⟨(mem_texts hnames h).1, (mem_texts hnames h).2.2⟩
    rw [← hresult] at hsplit hhead hresultNe
    have hlexical : lexical (simplifyPath path) = lexical path := by
      rw [hplace, lexical, decide_eq_false hhead, hsplit, map_texts hnames, Lexical.eval_moves (by simp)]
    refine ⟨iff_of_false hhead hrelative, .inr (.inr ?_), ?_, ?_, hlexical, ?_⟩
    · intro comp hcomp
      rw [belowRoot, if_neg hhead, hsplit] at hcomp
      exact ⟨(mem_texts hnames hcomp).1, (mem_texts hnames hcomp).2.1⟩
    · refine ⟨(lexical path).2.ups, (lexical path).2.names.reverse, ?_, ?_, fun h => absurd h hrelative⟩
      · rw [belowRoot, if_neg hhead, hsplit, texts]
      · intro h
        exact (hnames _ (List.mem_reverse.1 h)).ne_dots rfl
    · intro hstart
      exact absurd (texts_eq_nil_iff.2 hstart) htexts
    · rw [simplifyPath_relative hresultNe hhead, hlexical, if_neg htexts, hresult]

private theorem canonical_root (habsolute : path.head? = some slash) (hstart : (lexical path).2 = Place.start) :
    Canonical path := by
  obtain ⟨bottom, hbottom, -, hresult⟩ := simplifyPath_absolute habsolute
  have hplace : lexical path = (true, Place.start) := Prod.ext (decide_eq_true habsolute) hstart
  replace hresult : simplifyPath path = [slash] := by
    rw [hresult, hstart]
    rcases hbottom with rfl | rfl
    · rfl
    · rfl
  refine ⟨?_, .inl hresult, ⟨0, [[]], ?_, by simp, fun _ => rfl⟩, ?_, ?_, ?_⟩
  · rw [hresult]
    exact iff_of_true rfl habsolute
  · rw [hresult]
    rfl
  · intro _
    rw [hresult, if_pos habsolute]
  · rw [hresult, hplace]
    rfl
  · rw [hresult]
    rfl

/-- The place of an absolute path is below the root. -/
private theorem eq_start_of_names (habsolute : path.head? = some slash) (hnames : (lexical path).2.names = []) :
    (lexical path).2 = Place.start := by
  have hups : (lexical path).2.ups = 0 := by
    rw [lexical, decide_eq_true habsolute]
    exact Lexical.eval_ups _
  exact Place.ext hups hnames

/-- A path to a place below the root gets a second slash, at once or when it is simplified again. -/
private theorem not_canonical_absolute (habsolute : path.head? = some slash) (hstart : (lexical path).2 ≠ Place.start) :
    ¬Canonical path := by
  intro hcanonical
  obtain ⟨bottom, hbottom, -, hresult⟩ := simplifyPath_absolute habsolute
  have hnames : ∀ a ∈ (lexical path).2.names, IsName a := fun _ h => isName_of_mem_lexical h
  obtain ⟨comps, hcomps⟩ : ∃ comps, comps = (lexical path).2.names.reverse := ⟨_, rfl⟩
  have hne : comps ≠ [] := by
    rw [hcomps, ne_eq, List.reverse_eq_nil_iff]
    exact mt (eq_start_of_names habsolute) hstart
  have hdouble : [slash].intercalate ([[]] ++ comps) = slash :: [slash].intercalate comps := by
    rw [List.singleton_append, List.intercalate_cons_of_ne_nil hne]
    rfl
  rw [← hcomps] at hresult
  rcases hbottom with rfl | rfl
  · -- the empty component is back in the second round
    rw [List.nil_append] at hresult
    have hmem : ∀ comp ∈ comps, IsName comp := by
      intro comp h
      rw [hcomps, List.mem_reverse] at h
      exact hnames comp h
    have hsplit : (simplifyPath path).splitOn slash = [] :: comps := by
      rw [hresult, List.splitOn_cons_eq_if_modifyHead, if_pos (by simp),
        List.splitOn_intercalate slash (fun comp h => (hmem comp h).slash) hne]
    obtain ⟨bottom', -, hkeep, hagain⟩ := simplifyPath_absolute (hcanonical.absolute.2 habsolute)
    have hno : [dot, dot] ∉ (simplifyPath path).splitOn slash := by
      rw [hsplit, List.mem_cons, not_or]
      exact ⟨by simp, fun h => (hmem _ h).ne_dots rfl⟩
    rw [hcanonical.idempotent, hkeep hno, hcanonical.lexical, ← hcomps, hdouble, hresult] at hagain
    have := congrArg List.length hagain
    simp at this
  · rw [hdouble] at hresult
    rcases hcanonical.parts with hroot | hdot | hparts
    · rw [hroot] at hresult
      cases hresult
    · rw [hdot] at hresult
      cases hresult
    · have hempty : [] ∈ (belowRoot (simplifyPath path)).splitOn slash := by
        rw [belowRoot, if_pos (hcanonical.absolute.2 habsolute), hresult, List.tail_cons,
          List.splitOn_cons_eq_if_modifyHead, if_pos (by simp)]
        exact List.mem_cons_self
      exact (hparts [] hempty).1 rfl

private theorem canonical_iff_regular (path : List UInt8) : Canonical path ↔ Regular path := by
  constructor
  · intro hcanonical
    refine ⟨?_, ?_⟩
    · rintro rfl
      rcases hcanonical.parts with h | h | h
      · cases h
      · cases h
      · exact (h [] (by simp [simplifyPath_nil, belowRoot])).1 rfl
    · intro habsolute
      by_contra hstart
      exact not_canonical_absolute habsolute hstart hcanonical
  · rintro ⟨hne, hroot⟩
    by_cases habsolute : path.head? = some slash
    · exact canonical_root habsolute (hroot habsolute)
    · exact canonical_relative hne habsolute

private theorem simplifyPath_congr {path' : List UInt8} (h : Regular path) (h' : Regular path')
    (hsame : lexical path = lexical path') : simplifyPath path = simplifyPath path' := by
  have hhead : path.head? = some slash ↔ path'.head? = some slash := by
    have := congrArg Prod.fst hsame
    rwa [lexical, lexical, decide_eq_decide] at this
  by_cases habsolute : path.head? = some slash
  · have habsolute' := hhead.1 habsolute
    rw [(canonical_root habsolute (h.2 habsolute)).start (h.2 habsolute), if_pos habsolute,
      (canonical_root habsolute' (h'.2 habsolute')).start (h'.2 habsolute'), if_pos habsolute']
  · rw [simplifyPath_relative h.1 habsolute, simplifyPath_relative h'.1 (mt hhead.2 habsolute), hsame]

/-- `simplify_path` gives canonical forms, the same for two paths to the same place, exactly when each of the two is
relative and not empty, or leads to the root. -/
theorem canonical_iff (path path' : List UInt8) :
    (Canonical path ∧ Canonical path' ∧ (lexical path = lexical path' → simplifyPath path = simplifyPath path')) ↔
      Regular path ∧ Regular path' := by
  rw [canonical_iff_regular, canonical_iff_regular]
  constructor
  · rintro ⟨h, h', -⟩
    exact ⟨h, h'⟩
  · rintro ⟨h, h'⟩
    exact ⟨h, h', simplifyPath_congr h h'⟩

/-- `/a` becomes `//a`. -/
theorem not_canonical : ¬∀ path path', Canonical path ∧ Canonical path' ∧
    (lexical path = lexical path' → simplifyPath path = simplifyPath path') := by
  intro h
  have hresult : simplifyPath [slash, 0x61] = [slash, slash, 0x61] := by decide
  rcases (h [slash, 0x61] [slash, 0x61]).1.parts with hroot | hdot | hparts
  · rw [hresult] at hroot
    cases hroot
  · rw [hresult] at hdot
    cases hdot
  · rw [hresult] at hparts
    exact (hparts [] (by decide)).1 rfl

end Result

end DBolOS.Vfs
