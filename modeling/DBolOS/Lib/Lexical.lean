import Mathlib.Data.List.Basic

/-!
# Places named by paths

The lexical meaning of a path over names of any kind: a place is left upwards a number of times and entered by names.  A
rooted path stays at its root.  The moves that lead to a place evaluate to it (`eval_moves`), so that they are a normal form
of the paths with this meaning.
-/

namespace Lexical

variable {α : Type*}

inductive Move (α : Type*)
  | here
  | up
  | name (a : α)

/-- How often the place lies above the start, and the names that lead down to it, the last one first. -/
@[ext]
structure Place (α : Type*) where
  ups : Nat
  names : List α

namespace Place

def start : Place α := ⟨0, []⟩

def step (rooted : Bool) (p : Place α) : Move α → Place α
  | .here => p
  | .name a => { p with names := a :: p.names }
  | .up =>
    match p.names with
    | _ :: names => { p with names }
    | [] => if rooted then p else { p with ups := p.ups + 1 }

/-- The moves that lead to a place. -/
def moves (p : Place α) : List (Move α) := List.replicate p.ups .up ++ p.names.reverse.map .name

end Place

def eval (rooted : Bool) (moves : List (Move α)) : Place α := moves.foldl (Place.step rooted) Place.start

variable {rooted : Bool} {p : Place α}

theorem foldl_step_names (names : List α) :
    (names.map .name).foldl (Place.step rooted) p = { p with names := names.reverse ++ p.names } := by
  induction names generalizing p with
  | nil => rfl
  | cons a names ih =>
    rw [List.map_cons, List.foldl_cons, ih, Place.step, List.reverse_cons, List.append_assoc]
    rfl

theorem foldl_step_ups (n m : Nat) :
    (List.replicate n (.up : Move α)).foldl (Place.step false) ⟨m, []⟩ = ⟨m + n, []⟩ := by
  induction n generalizing m with
  | zero => rfl
  | succ n ih =>
    have hstep : Place.step false (⟨m, []⟩ : Place α) .up = ⟨m + 1, []⟩ := rfl
    rw [List.replicate_succ, List.foldl_cons, hstep, ih, Nat.add_assoc, Nat.add_comm 1 n]

/-- The moves of a place lead to it. -/
theorem eval_moves (hroot : rooted = true → p.ups = 0) : eval rooted p.moves = p := by
  have hups : (List.replicate p.ups (.up : Move α)).foldl (Place.step rooted) Place.start = ⟨p.ups, []⟩ := by
    cases rooted with
    | true =>
      rw [hroot rfl]
      rfl
    | false =>
      rw [Place.start, foldl_step_ups, Nat.zero_add]
  rw [eval, Place.moves, List.foldl_append, hups, foldl_step_names, List.reverse_reverse, List.append_nil]

theorem step_ups (hp : p.ups = 0) (move : Move α) : (p.step true move).ups = 0 := by
  obtain ⟨ups, names⟩ := p
  cases move with
  | here => exact hp
  | name a => exact hp
  | up =>
    cases names with
    | nil => exact hp
    | cons a names => exact hp

/-- A rooted path does not leave its root. -/
theorem eval_ups (moves : List (Move α)) : (eval true moves).ups = 0 := by
  have hfold : ∀ p : Place α, p.ups = 0 → (moves.foldl (Place.step true) p).ups = 0 := by
    induction moves with
    | nil => exact fun p hp => hp
    | cons move moves ih => exact fun p hp => ih _ (step_ups hp move)
  exact hfold _ rfl

theorem mem_names_step {move : Move α} {a : α} (h : a ∈ (p.step rooted move).names) : a ∈ p.names ∨ .name a = move := by
  obtain ⟨ups, names⟩ := p
  cases move with
  | here => exact .inl h
  | name b =>
    rcases List.mem_cons.1 h with rfl | h
    · exact .inr rfl
    · exact .inl h
  | up =>
    cases names with
    | nil =>
      cases rooted <;> cases h
    | cons b names => exact .inl (List.mem_cons_of_mem b h)

/-- The names of a place are names on the path. -/
theorem mem_names_eval {moves : List (Move α)} {a : α} (h : a ∈ (eval rooted moves).names) : .name a ∈ moves := by
  have hfold : ∀ p : Place α, a ∈ (moves.foldl (Place.step rooted) p).names → a ∈ p.names ∨ .name a ∈ moves := by
    clear h
    induction moves with
    | nil => exact fun p hp => .inl hp
    | cons move moves ih =>
      intro p hp
      rcases ih _ hp with hp | hp
      · rcases mem_names_step hp with hp | rfl
        · exact .inl hp
        · exact .inr List.mem_cons_self
      · exact .inr (List.mem_cons_of_mem _ hp)
  rcases hfold _ h with h | h
  · cases h
  · exact h

end Lexical
