import Mathlib

/-!
# A ledger of allocations

A trace lists the blocks that a program obtains, releases and reads.  The ledger plays the trace over the set of blocks
that are live, and has no value once a block is released or read that is not live.  `Owns` says that a trace plays and
which blocks it leaves to the program, as a list without repetition; `Dead` that a block is not live.
-/

namespace Ledger

variable {β : Type*}

/-- Releasing the null pointer has no effect. -/
inductive Event (β : Type*)
  | alloc (b : β)
  | free (p : Option β)
  | read (p : Option β)
deriving DecidableEq

variable [DecidableEq β]

/-- The live blocks after an event. -/
def Event.step (live : Finset β) : Event β → Option (Finset β)
  | .alloc b => if b ∈ live then none else some (insert b live)
  | .free none => some live
  | .free (some b) => if b ∈ live then some (live.erase b) else none
  | .read none => none
  | .read (some b) => if b ∈ live then some live else none

/-- The live blocks at the end of a trace that starts with none. -/
def ledger (trace : List (Event β)) : Option (Finset β) := trace.foldlM Event.step ∅

/-- Every block that the trace obtains is released once, and no block is read that is not live. -/
def Clean (trace : List (Event β)) : Prop := ledger trace = some ∅

instance (trace : List (Event β)) : Decidable (Clean trace) := inferInstanceAs (Decidable (_ = _))

theorem ledger_append (trace trace' : List (Event β)) :
    ledger (trace ++ trace') = (ledger trace).bind (trace'.foldlM Event.step) := List.foldlM_append

theorem ledger_snoc (trace : List (Event β)) (e : Event β) :
    ledger (trace ++ [e]) = (ledger trace).bind (fun live => e.step live) := by
  rw [ledger_append]
  simp

/-! ### What a trace leaves to the program -/

structure Owns (trace : List (Event β)) (bs : List β) : Prop where
  nodup : bs.Nodup
  live : ledger trace = some bs.toFinset

variable {trace trace' : List (Event β)} {bs bs' : List β} {b : β}

theorem Owns.nil : Owns ([] : List (Event β)) [] := ⟨List.nodup_nil, rfl⟩

theorem Owns.perm (h : Owns trace bs) (hp : bs.Perm bs') : Owns trace bs' :=
  ⟨hp.nodup_iff.1 h.nodup, by rw [h.live, List.toFinset_eq_of_perm _ _ hp]⟩

theorem Owns.clean (h : Owns trace []) : Clean trace := h.live

theorem Owns.alloc (h : Owns trace bs) (hb : b ∉ bs) : Owns (trace ++ [.alloc b]) (b :: bs) := by
  refine ⟨List.nodup_cons.2 ⟨hb, h.nodup⟩, ?_⟩
  have hlive : b ∉ bs.toFinset := by simpa using hb
  rw [ledger_snoc, h.live, Option.bind_some, Event.step, if_neg hlive, List.toFinset_cons]

theorem Owns.free (h : Owns trace (b :: bs)) : Owns (trace ++ [.free (some b)]) bs := by
  obtain ⟨hb, hbs⟩ := List.nodup_cons.1 h.nodup
  refine ⟨hbs, ?_⟩
  have hlive : b ∉ bs.toFinset := by simpa using hb
  rw [ledger_snoc, h.live, Option.bind_some, Event.step, if_pos (by simp), List.toFinset_cons,
    Finset.erase_insert hlive]

theorem Owns.free_none (h : Owns trace bs) : Owns (trace ++ [.free none]) bs :=
  ⟨h.nodup, by rw [ledger_snoc, h.live]; rfl⟩

theorem Owns.read (h : Owns trace bs) (hb : b ∈ bs) : Owns (trace ++ [.read (some b)]) bs := by
  refine ⟨h.nodup, ?_⟩
  rw [ledger_snoc, h.live, Option.bind_some, Event.step, if_pos (by simpa using hb)]

/-! ### Traces that do not play -/

def Broken (trace : List (Event β)) : Prop := ledger trace = none

theorem Broken.not_clean (h : Broken trace) : ¬ Clean trace := by
  intro hclean
  rw [Clean, h] at hclean
  cases hclean

theorem Broken.mono (h : Broken trace) (hp : trace <+: trace') : Broken trace' := by
  obtain ⟨rest, rfl⟩ := hp
  rw [Broken, ledger_append, h]
  rfl

/-- The block is not live at the end of the trace, if the trace plays. -/
def Dead (trace : List (Event β)) (b : β) : Prop := ∀ live, ledger trace = some live → b ∉ live

theorem Owns.dead (h : Owns trace bs) (hb : b ∉ bs) : Dead trace b := by
  intro live hlive
  rw [h.live] at hlive
  cases hlive
  simpa using hb

/-- Only obtaining a block makes it live. -/
theorem Dead.snoc (h : Dead trace b) {e : Event β} (he : ∀ a, e ≠ .alloc a) : Dead (trace ++ [e]) b := by
  intro live hlive
  rw [ledger_snoc] at hlive
  obtain ⟨live', hlive', hstep⟩ := Option.bind_eq_some_iff.1 hlive
  have hb : b ∉ live' := h live' hlive'
  cases e with
  | alloc a => exact absurd rfl (he a)
  | free p =>
    cases p with
    | none =>
      cases hstep
      exact hb
    | some a =>
      obtain ⟨-, ⟨⟩⟩ := Option.ite_none_right_eq_some.1 hstep
      exact fun hmem => hb (Finset.mem_of_mem_erase hmem)
  | read p =>
    cases p with
    | none => cases hstep
    | some a =>
      obtain ⟨-, ⟨⟩⟩ := Option.ite_none_right_eq_some.1 hstep
      exact hb

/-- Releasing a block twice. -/
theorem Dead.free (h : Dead trace b) : Broken (trace ++ [.free (some b)]) := by
  rw [Broken, ledger_snoc]
  cases hlive : ledger trace with
  | none => rfl
  | some live => rw [Option.bind_some, Event.step, if_neg (h live hlive)]

end Ledger
