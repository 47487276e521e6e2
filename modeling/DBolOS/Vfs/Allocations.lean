import DBolOS.Lib.Ledger
import DBolOS.Vfs.Paths

/-!
# The blocks of `simplify_path`

`simplify_path` keeps each component in a block of its own and moves the blocks between two growing arrays.  The model
runs it against a `kmalloc` that fails at one call, and logs what it obtains, releases and reads.  Everything is
released once exactly when the call that fails is one of those made while the path is split (`releasesOnce_iff`): the
cleanup at the end of the function releases the components array whose components the stack already owns.
-/

namespace DBolOS.Vfs

open Fat (slash dot)
open Ledger (Event Broken Clean Dead)

/-! ### The heap as `simplify_path` sees it -/

/-- How often `kmalloc` was called, and what became of its blocks.  A block is named by the call that gave it. -/
structure Allocs where
  calls : Nat
  trace : List (Event Nat)

namespace Allocs

/-- Call number `fails` gives no block. -/
def kmalloc (fails : Nat) (h : Allocs) : Option Nat × Allocs :=
  if h.calls = fails then (none, { h with calls := h.calls + 1 })
  else (some h.calls, ⟨h.calls + 1, h.trace ++ [.alloc h.calls]⟩)

def kfree (h : Allocs) (p : Option Nat) : Allocs := { h with trace := h.trace ++ [.free p] }

def read (h : Allocs) (p : Option Nat) : Allocs := { h with trace := h.trace ++ [.read p] }

end Allocs

/-! ### Growing arrays of components -/

/-- The block of a component and its text. -/
abbrev Component := Nat × List UInt8

/-- `components` or `stack`, with its size and its capacity. -/
structure PtrArray where
  block : Option Nat
  capacity : Nat
  elems : List Component
  fits : elems.length ≤ capacity
  unallocated : block = none → capacity = 0

def PtrArray.empty : PtrArray := ⟨none, 0, [], Nat.le_refl 0, fun _ => rfl⟩

def grown (capacity : Nat) : Nat := if capacity = 0 then 4 else capacity * 2

private theorem lt_grown {size capacity : Nat} (h : size ≤ capacity) : size < grown capacity := by
  unfold grown
  split <;> omega

namespace PtrArray

/-- The array is copied to one of twice its capacity when it is full. -/
def push (fails : Nat) (a : PtrArray) (comp : Component) (h : Allocs) : Option PtrArray × Allocs :=
  if hroom : a.elems.length < a.capacity then
    (some { a with elems := a.elems ++ [comp], fits := by simpa using hroom }, h)
  else
    match h.kmalloc fails with
    | (none, h) => (none, h)
    | (some b, h) =>
      (some ⟨some b, grown a.capacity, a.elems ++ [comp], by simpa using lt_grown a.fits, fun h => nomatch h⟩,
        (a.elems.foldl (fun h _ => h.read a.block) h).kfree a.block)

def pop (a : PtrArray) : PtrArray :=
  { a with
    elems := a.elems.dropLast
    fits := Nat.le_trans (by simp) a.fits }

/-- The blocks of the array and of its elements. -/
def blocks (a : PtrArray) : List Nat := a.block.toList ++ a.elems.map Prod.fst

end PtrArray

/-- The elements are released and then the array.  The null pointer has no elements. -/
def Allocs.release (h : Allocs) (a : PtrArray) : Allocs :=
  (a.elems.foldl (fun h comp => (h.read a.block).kfree (some comp.1)) h).kfree a.block

def Allocs.readAll (h : Allocs) (a : PtrArray) : Allocs :=
  a.elems.foldl (fun h comp => (h.read a.block).read (some comp.1)) h

/-! ### `simplify_path` -/

/-- The components are copied to blocks of their own. -/
def splitLoop (fails : Nat) : List (List UInt8) → PtrArray → Allocs → Option PtrArray × Allocs
  | [], components, h => (some components, h)
  | text :: texts, components, h =>
    match h.kmalloc fails with
    | (none, h) => (none, h.release components)
    | (some b, h) =>
      match components.push fails (b, text) h with
      | (none, h) => (none, (h.kfree (some b)).release components)
      | (some components, h) => splitLoop fails texts components h

/-- One component: it is released, or pushed on the stack. -/
def stackStep (fails : Nat) (isAbsolute : Bool) (stack : PtrArray) (comp : Component) (h : Allocs) :
    Option PtrArray × Allocs :=
  let h := h.read (some comp.1)
  if comp.2 = [dot] then (some stack, h.kfree (some comp.1))
  else
    let h := h.read (some comp.1)
    if comp.2 = [dot, dot] then
      match isAbsolute, stack.elems.getLast? with
      | true, none => (some stack, h.kfree (some comp.1))
      | true, some top => (some stack.pop, ((h.read stack.block).kfree (some top.1)).kfree (some comp.1))
      | false, none => stack.push fails comp h
      | false, some top =>
        let h := (h.read stack.block).read (some top.1)
        if top.2 = [dot, dot] then stack.push fails comp h
        else (some stack.pop, ((h.read stack.block).kfree (some top.1)).kfree (some comp.1))
    else stack.push fails comp h

/-- The label `error`: both arrays are released with their elements. -/
def cleanup (components stack : PtrArray) (h : Allocs) : Allocs := (h.release components).release stack

def stackLoop (fails : Nat) (isAbsolute : Bool) (components : PtrArray) :
    List Component → PtrArray → Allocs → Option PtrArray × Allocs
  | [], stack, h => (some stack, h)
  | comp :: comps, stack, h =>
    match stackStep fails isAbsolute stack comp (h.read components.block) with
    | (none, h) => (none, cleanup components stack (h.kfree (some comp.1)))
    | (some stack, h) => stackLoop fails isAbsolute components comps stack h

/-- The text of the result, from the components on the stack. -/
def resultText (isAbsolute : Bool) (stack : List (List UInt8)) : List UInt8 :=
  let result := List.intercalate [slash] stack
  if isAbsolute then slash :: result else if stack = [] then [dot] else result

/-- The end of the function: the components array goes, and the stack is copied to the result. -/
def buildResult (fails : Nat) (isAbsolute : Bool) (components stack : PtrArray) (h : Allocs) :
    Option Component × Allocs :=
  let h := (h.kfree components.block).readAll stack
  match h.kmalloc fails with
  | (none, h) => (none, cleanup components stack h)
  | (some b, h) => (some (b, resultText isAbsolute (stack.elems.map Prod.snd)), (h.readAll stack).release stack)

namespace Allocs

def simplifyPath (fails : Nat) (path : List UInt8) : Option Component × Allocs :=
  let isAbsolute := decide (path.head? = some slash)
  match splitLoop fails (components path) PtrArray.empty ⟨0, []⟩ with
  | (none, h) => (none, h)
  | (some components, h) =>
    match stackLoop fails isAbsolute components components.elems PtrArray.empty h with
    | (none, h) => (none, h)
    | (some stack, h) => buildResult fails isAbsolute components stack h

end Allocs

/-! ### How often the first loop calls `kmalloc` -/

/-- The capacity of an array after so many pushes. -/
def capacityFor : Nat → Nat
  | 0 => 0
  | n + 1 => if n < capacityFor n then capacityFor n else grown (capacityFor n)

/-- How often the array grows in so many pushes. -/
def growths : Nat → Nat
  | 0 => 0
  | n + 1 => if n < capacityFor n then growths n else growths n + 1

/-- One block for each component, and one for each array that holds them in turn. -/
def splitCalls (path : List UInt8) : Nat := (components path).length + growths (components path).length

private theorem growths_mono {m n : Nat} (h : m ≤ n) : growths m ≤ growths n := by
  induction n with
  | zero =>
    obtain rfl : m = 0 := by omega
    exact Nat.le_refl _
  | succ n ih =>
    rcases Nat.lt_or_ge n m with hlt | hle
    · obtain rfl : m = n + 1 := by omega
      exact Nat.le_refl _
    · have hn : growths m ≤ growths n := ih hle
      rw [growths]
      split <;> omega

/-! ### Ownership -/

/-- The trace plays and leaves these blocks, and new blocks differ from them. -/
structure Allocs.Owns (h : Allocs) (bs : List Nat) : Prop where
  ledger : Ledger.Owns h.trace bs
  lt : ∀ b ∈ bs, b < h.calls

namespace Allocs

variable {fails : Nat} {h h' : Allocs} {a : PtrArray} {bs bs' : List Nat} {b : Nat}

private theorem Owns.perm (ho : h.Owns bs) (hp : bs.Perm bs') : h.Owns bs' :=
  ⟨ho.ledger.perm hp, fun b hb => ho.lt b (hp.mem_iff.2 hb)⟩

private theorem Owns.kfree (ho : h.Owns (b :: bs)) : (h.kfree (some b)).Owns bs :=
  ⟨ho.ledger.free, fun c hc => ho.lt c (List.mem_cons_of_mem b hc)⟩

private theorem Owns.kfree_none (ho : h.Owns bs) : (h.kfree none).Owns bs := ⟨ho.ledger.free_none, ho.lt⟩

private theorem Owns.read (ho : h.Owns bs) (hb : b ∈ bs) : (h.read (some b)).Owns bs := ⟨ho.ledger.read hb, ho.lt⟩

/-- The block of an array is released, if it has one. -/
private theorem Owns.kfree_block {p : Option Nat} (ho : h.Owns (p.toList ++ bs)) : (h.kfree p).Owns bs := by
  cases p with
  | none => exact ho.kfree_none
  | some b => exact ho.kfree

/-- The call fails, or gives a block that the program does not have yet. -/
private theorem kmalloc_cases (fails : Nat) (h : Allocs) :
    (h.calls = fails ∧ h.kmalloc fails = (none, { h with calls := h.calls + 1 })) ∨
      (h.calls ≠ fails ∧ h.kmalloc fails = (some h.calls, ⟨h.calls + 1, h.trace ++ [.alloc h.calls]⟩)) := by
  unfold kmalloc
  by_cases hcalls : h.calls = fails
  · exact .inl ⟨hcalls, if_pos hcalls⟩
  · exact .inr ⟨hcalls, if_neg hcalls⟩

private theorem Owns.fail (ho : h.Owns bs) : ({ h with calls := h.calls + 1 } : Allocs).Owns bs :=
  ⟨ho.ledger, fun b hb => Nat.lt_succ_of_lt (ho.lt b hb)⟩

private theorem Owns.alloc (ho : h.Owns bs) :
    (⟨h.calls + 1, h.trace ++ [.alloc h.calls]⟩ : Allocs).Owns (h.calls :: bs) := by
  have hnew : h.calls ∉ bs := fun hmem => Nat.lt_irrefl _ (ho.lt _ hmem)
  refine ⟨ho.ledger.alloc hnew, fun b hb => ?_⟩
  rcases List.mem_cons.1 hb with rfl | hb
  · exact Nat.lt_succ_self _
  · exact Nat.lt_succ_of_lt (ho.lt b hb)

end Allocs

private theorem PtrArray.block_eq_some {a : PtrArray} (h : a.elems ≠ []) : ∃ b, a.block = some b := by
  cases hb : a.block with
  | some b => exact ⟨b, rfl⟩
  | none =>
    have hlen : a.elems.length ≤ a.capacity := a.fits
    rw [a.unallocated hb, Nat.le_zero, List.length_eq_zero_iff] at hlen
    exact absurd hlen h

section

variable {fails : Nat} {h h' : Allocs} {a : PtrArray} {bs : List Nat} {b : Nat} {comps : List Component}

/-- Each element is released while the array is still there. -/
private theorem owns_foldl_release (ho : h.Owns (b :: (comps.map Prod.fst ++ bs))) :
    (comps.foldl (fun h comp => (h.read (some b)).kfree (some comp.1)) h).Owns (b :: bs) := by
  induction comps generalizing h with
  | nil => exact ho
  | cons comp comps ih =>
    have hread : (h.read (some b)).Owns (comp.1 :: b :: (comps.map Prod.fst ++ bs)) :=
      (ho.read List.mem_cons_self).perm (List.Perm.swap _ _ _)
    exact ih hread.kfree

private theorem owns_release (ho : h.Owns (a.blocks ++ bs)) : (h.release a).Owns bs := by
  unfold Allocs.release
  rw [PtrArray.blocks, List.append_assoc] at ho
  by_cases helems : a.elems = []
  · rw [helems] at ho ⊢
    exact ho.kfree_block
  · obtain ⟨b, hb⟩ := PtrArray.block_eq_some helems
    rw [hb] at ho ⊢
    exact (owns_foldl_release ho).kfree

private theorem owns_readAll (ho : h.Owns bs) (hsub : ∀ b ∈ a.blocks, b ∈ bs) : (h.readAll a).Owns bs := by
  unfold Allocs.readAll
  by_cases helems : a.elems = []
  · rw [helems]
    exact ho
  obtain ⟨b, hb⟩ := PtrArray.block_eq_some helems
  have hblock : b ∈ bs := hsub b (by simp [PtrArray.blocks, hb])
  have helem : ∀ comp ∈ a.elems, comp.1 ∈ bs := by
    intro comp hcomp
    exact hsub comp.1 (List.mem_append_right _ (List.mem_map_of_mem hcomp))
  rw [hb]
  generalize a.elems = elems at helem
  induction elems generalizing h with
  | nil => exact ho
  | cons comp elems ih =>
    have hcomp : comp.1 ∈ bs := helem comp List.mem_cons_self
    exact ih ((ho.read hblock).read hcomp) (fun c hc => helem c (List.mem_cons_of_mem _ hc))

/-- The old array is read once for each of its elements. -/
private theorem owns_foldl_read (ho : h.Owns bs) (hb : b ∈ bs) :
    (comps.foldl (fun h _ => h.read (some b)) h).Owns bs := by
  induction comps generalizing h with
  | nil => exact ho
  | cons comp comps ih => exact ih (ho.read hb)

private theorem calls_readAll : (h.readAll a).calls = h.calls := by
  rw [Allocs.readAll]
  generalize a.elems = comps
  induction comps generalizing h with
  | nil => rfl
  | cons comp comps ih => exact ih (h := (h.read a.block).read (some comp.1))

private theorem calls_release : (h.release a).calls = h.calls := by
  rw [Allocs.release, Allocs.kfree]
  generalize a.elems = comps
  induction comps generalizing h with
  | nil => rfl
  | cons comp comps ih => exact ih (h := (h.read a.block).kfree (some comp.1))

private theorem calls_foldl_read (p : Option Nat) : (comps.foldl (fun h _ => h.read p) h).calls = h.calls := by
  induction comps generalizing h with
  | nil => rfl
  | cons comp comps ih => exact ih

private theorem owns_grow (ho : h.Owns (a.blocks ++ bs)) :
    ((a.elems.foldl (fun h _ => h.read a.block) h).kfree a.block).Owns (a.elems.map Prod.fst ++ bs) := by
  rw [PtrArray.blocks, List.append_assoc] at ho
  by_cases helems : a.elems = []
  · rw [helems] at ho ⊢
    exact ho.kfree_block
  · obtain ⟨b, hb⟩ := PtrArray.block_eq_some helems
    rw [hb] at ho ⊢
    exact (owns_foldl_read ho List.mem_cons_self).kfree

/-- The component moves into the array, which may grow.  If no block is left to grow to, nothing changes. -/
private theorem push_spec (comp : Component) (ho : h.Owns (a.blocks ++ comp.1 :: bs)) (hle : h.calls ≤ fails) :
    (a.capacity ≤ a.elems.length ∧ h.calls = fails ∧
        ∃ h', a.push fails comp h = (none, h') ∧ h'.Owns (a.blocks ++ comp.1 :: bs)) ∨
      ∃ a' h', a.push fails comp h = (some a', h') ∧ h'.Owns (a'.blocks ++ bs) ∧ a'.elems = a.elems ++ [comp] ∧
        h'.calls ≤ fails ∧ a'.capacity = (if a.elems.length < a.capacity then a.capacity else grown a.capacity) ∧
        h'.calls = (if a.elems.length < a.capacity then h.calls else h.calls + 1) := by
  unfold PtrArray.push
  split
  · rename_i hroom
    refine .inr ⟨_, _, rfl, ho.perm ?_, rfl, hle, rfl, rfl⟩
    simp [PtrArray.blocks]
  rename_i hroom
  rcases Allocs.kmalloc_cases fails h with ⟨hcalls, heq⟩ | ⟨hcalls, heq⟩
  · rw [heq]
    exact .inl ⟨Nat.not_lt.1 hroom, hcalls, _, rfl, ho.fail⟩
  · rw [heq]
    refine .inr ⟨_, _, rfl, ?_, rfl, ?_, rfl, ?_⟩
    · have hgrow := owns_grow (ho.alloc.perm List.perm_middle.symm)
      refine hgrow.perm ?_
      simp [PtrArray.blocks]
    · rw [Allocs.kfree, calls_foldl_read]
      exact Nat.lt_of_le_of_ne hle hcalls
    · rw [Allocs.kfree, calls_foldl_read]

/-! ### Splitting the path -/

/-- The array holds what was split so far, and each call of `kmalloc` gave a component or an array. -/
structure Splitting (a : PtrArray) (h : Allocs) : Prop where
  owns : h.Owns a.blocks
  capacity : a.capacity = capacityFor a.elems.length
  calls : h.calls = a.elems.length + growths a.elems.length

/-- The loop gives every component, or fails at one of its calls with everything released. -/
private theorem splitLoop_spec (texts : List (List UInt8)) (hs : Splitting a h) (hle : h.calls ≤ fails) :
    (fails < a.elems.length + texts.length + growths (a.elems.length + texts.length) ∧
        ∃ h', splitLoop fails texts a h = (none, h') ∧ h'.Owns []) ∨
      ∃ a' h', splitLoop fails texts a h = (some a', h') ∧ Splitting a' h' ∧ h'.calls ≤ fails ∧
        a'.elems.map Prod.snd = a.elems.map Prod.snd ++ texts := by
  induction texts generalizing a h with
  | nil => exact .inr ⟨a, h, rfl, hs, hle, (List.append_nil _).symm⟩
  | cons text texts ih =>
    have hmono : growths (a.elems.length + 1) ≤ growths (a.elems.length + (text :: texts).length) :=
      growths_mono (by rw [List.length_cons]; omega)
    have hgrow : growths (a.elems.length + 1) =
        if a.elems.length < a.capacity then growths a.elems.length else growths a.elems.length + 1 := by
      rw [hs.capacity, growths]
    have hcalls := hs.calls
    have howns : h.Owns (a.blocks ++ []) := by
      rw [List.append_nil]
      exact hs.owns
    rw [splitLoop]
    rcases Allocs.kmalloc_cases fails h with ⟨hfail, heq⟩ | ⟨hok, heq⟩
    · -- no block for the component
      rw [heq]
      refine .inl ⟨?_, _, rfl, owns_release howns.fail⟩
      rw [List.length_cons] at hmono ⊢
      split at hgrow <;> omega
    rw [heq]
    dsimp only
    have halloc : Allocs.Owns ⟨h.calls + 1, h.trace ++ [.alloc h.calls]⟩ (a.blocks ++ h.calls :: []) :=
      howns.alloc.perm List.perm_middle.symm
    rcases push_spec (h.calls, text) halloc (Nat.lt_of_le_of_ne hle hok) with
      ⟨hfull, hfail, h', heq', ho'⟩ | ⟨a', h', heq', ho', helems, hle', hcap, hcalls'⟩
    · -- no block for the array
      rw [heq']
      dsimp only at hfail
      rw [if_neg (Nat.not_lt.2 hfull)] at hgrow
      refine .inl ⟨?_, _, rfl, owns_release (ho'.perm List.perm_middle).kfree⟩
      rw [List.length_cons] at hmono ⊢
      omega
    · rw [heq']
      dsimp only at hcalls' ⊢
      have hlen : a'.elems.length = a.elems.length + 1 := by rw [helems, List.length_append, List.length_singleton]
      have hs' : Splitting a' h' := by
        refine ⟨by simpa using ho', ?_, ?_⟩
        · rw [hlen, capacityFor, hcap, ← hs.capacity]
        · rw [hlen, hgrow, hcalls', hcalls]
          split <;> omega
      have hnext := ih hs' hle'
      rw [hlen, show a.elems.length + 1 + texts.length = a.elems.length + (text :: texts).length by
        rw [List.length_cons]; omega, helems, List.map_append, List.append_assoc] at hnext
      exact hnext

/-! ### The stack -/

section

variable {stack : PtrArray} {comp top : Component} {init : List Component}

/-- The texts on the stack, the top first. -/
def PtrArray.texts (stack : PtrArray) : List (List UInt8) := (stack.elems.map Prod.snd).reverse

private theorem texts_pop (htop : stack.elems = init ++ [top]) : stack.texts = top.2 :: stack.pop.texts := by
  simp [PtrArray.texts, PtrArray.pop, htop]

private theorem owns_pop (htop : stack.elems = init ++ [top]) (ho : h.Owns (stack.blocks ++ comp.1 :: bs)) :
    (((h.read stack.block).kfree (some top.1)).kfree (some comp.1)).Owns (stack.pop.blocks ++ bs) := by
  obtain ⟨b, hb⟩ := PtrArray.block_eq_some (a := stack) (by simp [htop])
  have hread := ho.read (b := b) (by simp [PtrArray.blocks, hb])
  have hblocks : stack.blocks = stack.pop.blocks ++ [top.1] := by simp [PtrArray.blocks, PtrArray.pop, htop]
  rw [hblocks, List.append_assoc] at hread
  rw [hb]
  exact (hread.perm (List.perm_middle.trans (List.perm_middle.cons _))).kfree.kfree

/-- One component: no block is left to grow the stack, or the stack changes as the path says. -/
private theorem stackStep_spec (isAbsolute : Bool) (ho : h.Owns (stack.blocks ++ comp.1 :: bs))
    (hle : h.calls ≤ fails) :
    (∃ h', stackStep fails isAbsolute stack comp h = (none, h') ∧ h'.Owns (stack.blocks ++ comp.1 :: bs)) ∨
      ∃ stack' h', stackStep fails isAbsolute stack comp h = (some stack', h') ∧ h'.Owns (stack'.blocks ++ bs) ∧
        h'.calls ≤ fails ∧ stack'.texts = pushComponent isAbsolute stack.texts comp.2 := by
  have hmem : comp.1 ∈ stack.blocks ++ comp.1 :: bs := by simp
  have hdrop : ∀ {h : Allocs}, h.Owns (stack.blocks ++ comp.1 :: bs) → (h.kfree (some comp.1)).Owns (stack.blocks ++ bs) :=
    fun ho => (ho.perm List.perm_middle).kfree
  -- pushing the component on the stack
  have hpush : ∀ {h : Allocs}, h.Owns (stack.blocks ++ comp.1 :: bs) → h.calls ≤ fails →
      (∃ h', stack.push fails comp h = (none, h') ∧ h'.Owns (stack.blocks ++ comp.1 :: bs)) ∨
        ∃ stack' h', stack.push fails comp h = (some stack', h') ∧ h'.Owns (stack'.blocks ++ bs) ∧
          h'.calls ≤ fails ∧ stack'.texts = comp.2 :: stack.texts := by
    intro h ho hle
    rcases push_spec comp ho hle with ⟨-, -, h', heq, ho'⟩ | ⟨stack', h', heq, ho', helems, hle', -, -⟩
    · exact .inl ⟨h', heq, ho'⟩
    · exact .inr ⟨stack', h', heq, ho', hle', by simp [PtrArray.texts, helems]⟩
  unfold stackStep pushComponent
  by_cases hdot : comp.2 = [dot]
  · rw [if_pos hdot, if_pos hdot]
    exact .inr ⟨stack, _, rfl, hdrop (ho.read hmem), hle, rfl⟩
  rw [if_neg hdot, if_neg hdot]
  have ho2 := (ho.read hmem).read hmem
  by_cases hdots : comp.2 = [dot, dot]
  · rw [if_pos hdots, if_pos hdots]
    cases isAbsolute <;> cases hlast : stack.elems.getLast?
    · have hnil : stack.texts = [] := by
        simp [PtrArray.texts, List.getLast?_eq_none_iff.1 hlast]
      dsimp only
      rw [hnil] at hpush ⊢
      exact hpush ho2 hle
    · rename_i top
      obtain ⟨init, htop⟩ := List.getLast?_eq_some_iff.1 hlast
      have hreads : (((h.read (some comp.1)).read (some comp.1)).read stack.block).read (some top.1) |>.Owns
          (stack.blocks ++ comp.1 :: bs) := by
        obtain ⟨b, hb⟩ := PtrArray.block_eq_some (a := stack) (by simp [htop])
        rw [hb]
        exact (ho2.read (by simp [PtrArray.blocks, hb])).read (by simp [PtrArray.blocks, htop])
      dsimp only
      rw [texts_pop htop]
      by_cases htops : top.2 = [dot, dot]
      · rw [if_pos htops, if_neg Bool.false_ne_true]
        dsimp only
        rw [if_pos htops]
        rw [texts_pop htop] at hpush
        exact hpush hreads hle
      · rw [if_neg htops, if_neg Bool.false_ne_true]
        dsimp only
        rw [if_neg htops]
        exact .inr ⟨_, _, rfl, owns_pop htop hreads, hle, rfl⟩
    · have hnil : stack.texts = [] := by
        simp [PtrArray.texts, List.getLast?_eq_none_iff.1 hlast]
      exact .inr ⟨stack, _, rfl, hdrop ho2, hle, by rw [hnil]; rfl⟩
    · rename_i top
      obtain ⟨init, htop⟩ := List.getLast?_eq_some_iff.1 hlast
      exact .inr ⟨stack.pop, _, rfl, owns_pop htop ho2, hle, by rw [texts_pop htop]; rfl⟩
  · rw [if_neg hdots, if_neg hdots]
    exact hpush ho2 hle

end

/-! ### Releasing what is no longer there -/

private theorem foldl_release_extends (p : Option Nat) (h : Allocs) :
    h.trace <+: (comps.foldl (fun h comp => (h.read p).kfree (some comp.1)) h).trace := by
  induction comps generalizing h with
  | nil => exact List.prefix_rfl
  | cons comp comps ih =>
    exact ((List.prefix_append _ _).trans (List.prefix_append _ _)).trans (ih ((h.read p).kfree (some comp.1)))

private theorem release_extends (h : Allocs) (a : PtrArray) : h.trace <+: (h.release a).trace :=
  (foldl_release_extends a.block h).trans (List.prefix_append _ _)

private theorem foldl_release_broken {p : Option Nat} {comp : Component} (hdead : Dead h.trace comp.1)
    (hmem : comp ∈ comps) :
    Broken (comps.foldl (fun h comp => (h.read p).kfree (some comp.1)) h).trace := by
  induction comps generalizing h with
  | nil => exact absurd hmem List.not_mem_nil
  | cons head comps ih =>
    have hread : Dead (h.read p).trace comp.1 := hdead.snoc (fun a => nofun)
    rcases List.mem_cons.1 hmem with rfl | hmem
    · exact hread.free.mono (foldl_release_extends p ((h.read p).kfree (some comp.1)))
    · exact ih (h := (h.read p).kfree (some head.1)) (hread.snoc (fun a => nofun)) hmem

private theorem release_broken_of_elem {comp : Component} (hdead : Dead h.trace comp.1) (hmem : comp ∈ a.elems) :
    Broken (h.release a).trace :=
  (foldl_release_broken hdead hmem).mono (List.prefix_append _ _)

private theorem foldl_release_dead {p : Option Nat} (hdead : Dead h.trace b) :
    Dead (comps.foldl (fun h comp => (h.read p).kfree (some comp.1)) h).trace b := by
  induction comps generalizing h with
  | nil => exact hdead
  | cons comp comps ih =>
    have hread : Dead (h.read p).trace b := hdead.snoc (fun a => nofun)
    exact ih (h := (h.read p).kfree (some comp.1)) (hread.snoc (fun a => nofun))

private theorem release_broken_of_block (hdead : Dead h.trace b) (hb : a.block = some b) :
    Broken (h.release a).trace := by
  have hfold : Dead (a.elems.foldl (fun h comp => (h.read a.block).kfree (some comp.1)) h).trace b :=
    foldl_release_dead hdead
  rw [Allocs.release]
  rw [hb] at hfold ⊢
  exact hfold.free

section

variable {components stack : PtrArray}

private theorem cleanup_broken (hbroken : Broken (h.release components).trace) :
    Broken (cleanup components stack h).trace :=
  hbroken.mono (release_extends _ stack)

/-- The stack holds what the path says, or the cleanup releases the component that no block was left for again. -/
private theorem stackLoop_spec (isAbsolute : Bool) (hmem : ∀ comp ∈ comps, comp ∈ components.elems)
    (ho : h.Owns (stack.blocks ++ (comps.map Prod.fst ++ components.block.toList))) (hle : h.calls ≤ fails) :
    (∃ h', stackLoop fails isAbsolute components comps stack h = (none, h') ∧ Broken h'.trace) ∨
      ∃ stack' h', stackLoop fails isAbsolute components comps stack h = (some stack', h') ∧
        h'.Owns (stack'.blocks ++ components.block.toList) ∧ h'.calls ≤ fails ∧
        stack'.texts = (comps.map Prod.snd).foldl (pushComponent isAbsolute) stack.texts := by
  induction comps generalizing stack h with
  | nil => exact .inr ⟨stack, h, rfl, ho, hle, rfl⟩
  | cons comp comps ih =>
    have hcomp : comp ∈ components.elems := hmem comp List.mem_cons_self
    obtain ⟨b, hb⟩ := PtrArray.block_eq_some (List.ne_nil_of_mem hcomp)
    have hread : (h.read components.block).Owns
        (stack.blocks ++ comp.1 :: (comps.map Prod.fst ++ components.block.toList)) := by
      rw [hb] at ho ⊢
      exact ho.read (by simp)
    rw [stackLoop]
    rcases stackStep_spec isAbsolute hread hle with
      ⟨h', heq, ho'⟩ | ⟨stack', h', heq, ho', hle', htexts⟩
    · rw [heq]
      refine .inl ⟨_, rfl, cleanup_broken (release_broken_of_elem ?_ hcomp)⟩
      -- the component is released before the cleanup
      have hperm := ho'.perm List.perm_middle
      exact hperm.kfree.ledger.dead (List.nodup_cons.1 hperm.ledger.nodup).1
    · rw [heq]
      have hnext := ih (fun c hc => hmem c (List.mem_cons_of_mem _ hc)) ho' hle'
      rw [htexts] at hnext
      exact hnext

/-- The result is built, or the cleanup releases the components array again. -/
private theorem buildResult_spec (isAbsolute : Bool) (hblock : components.block ≠ none)
    (ho : h.Owns (stack.blocks ++ components.block.toList)) (hle : h.calls ≤ fails) :
    (∃ h', buildResult fails isAbsolute components stack h = (none, h') ∧ Broken h'.trace) ∨
      ∃ b h', buildResult fails isAbsolute components stack h =
          (some (b, resultText isAbsolute (stack.elems.map Prod.snd)), h') ∧ h'.Owns [b] ∧ h'.calls ≤ fails := by
  obtain ⟨b, hb⟩ := Option.ne_none_iff_exists'.1 hblock
  rw [hb] at ho
  have hperm := ho.perm List.perm_append_comm
  have hnew : b ∉ stack.blocks := (List.nodup_cons.1 hperm.ledger.nodup).1
  have hread : ((h.kfree (some b)).readAll stack).Owns stack.blocks := owns_readAll hperm.kfree (fun _ hc => hc)
  have hcalls : ((h.kfree (some b)).readAll stack).calls ≤ fails := by rwa [calls_readAll]
  rw [buildResult, hb]
  generalize (h.kfree (some b)).readAll stack = h at hread hcalls
  rcases Allocs.kmalloc_cases fails h with ⟨hfail, heq⟩ | ⟨hok, heq⟩
  · rw [heq]
    exact .inl ⟨_, rfl, cleanup_broken (release_broken_of_block (hread.ledger.dead hnew) hb)⟩
  · rw [heq]
    have hcopy := owns_readAll (a := stack) hread.alloc (fun c hc => List.mem_cons_of_mem _ hc)
    refine .inr ⟨h.calls, _, rfl, owns_release (hcopy.perm ?_), ?_⟩
    · exact (List.perm_append_singleton h.calls stack.blocks).symm
    · rw [calls_release, calls_readAll]
      exact Nat.lt_of_le_of_ne hcalls hok

end

/-! ### The function -/

private theorem components_ne_nil (path : List UInt8) : Vfs.components path ≠ [] := by
  unfold Vfs.components
  by_cases hempty : path = [] ∨ path.head? = some slash
  · rw [if_pos hempty]
    simp
  rw [if_neg hempty]
  cases path with
  | nil => exact absurd (.inl rfl) hempty
  | cons c path =>
    have hc : c ≠ slash := fun hc => hempty (.inr (by rw [hc]; rfl))
    rw [List.splitOn_cons_eq_if_modifyHead, if_neg (by simpa using hc)]
    obtain ⟨text, texts, htexts⟩ := List.exists_cons_of_ne_nil (List.splitOn_ne_nil slash path)
    rw [htexts]
    simp

/-- A run in which no call of `kmalloc` fails gives the simplified path in the one block that is left. -/
private theorem simplifyPath_spec (fails : Nat) (path : List UInt8) :
    (fails < splitCalls path ∧ ∃ h', Allocs.simplifyPath fails path = (none, h') ∧ h'.Owns []) ∨
      (splitCalls path ≤ fails ∧ ∃ h', Allocs.simplifyPath fails path = (none, h') ∧ Broken h'.trace) ∨
      ∃ b h', Allocs.simplifyPath fails path = (some (b, Vfs.simplifyPath path), h') ∧ h'.Owns [b] ∧
        h'.calls ≤ fails := by
  have hempty : Splitting PtrArray.empty ⟨0, []⟩ := ⟨⟨Ledger.Owns.nil, nofun⟩, rfl, rfl⟩
  rw [Allocs.simplifyPath]
  rcases splitLoop_spec (Vfs.components path) hempty (Nat.zero_le fails) with
    ⟨hlt, h, heq, ho⟩ | ⟨components, h, heq, hs, hle, htexts⟩
  · rw [heq]
    refine .inl ⟨?_, h, rfl, ho⟩
    simpa [splitCalls, PtrArray.empty] using hlt
  right
  rw [heq]
  dsimp only
  rw [show PtrArray.empty.elems.map Prod.snd = [] from rfl, List.nil_append] at htexts
  have hcalls : splitCalls path ≤ fails := by
    have hlen : components.elems.length = (Vfs.components path).length := by
      rw [← htexts, List.length_map]
    rw [splitCalls, ← hlen, ← hs.calls]
    exact hle
  have hne : components.elems ≠ [] := by
    intro hnil
    rw [hnil] at htexts
    exact components_ne_nil path htexts.symm
  obtain ⟨b, hb⟩ := PtrArray.block_eq_some hne
  have hperm : h.Owns (PtrArray.empty.blocks ++ (components.elems.map Prod.fst ++ components.block.toList)) :=
    hs.owns.perm List.perm_append_comm
  rcases stackLoop_spec (decide (path.head? = some slash)) (fun _ hc => hc) hperm hle with
    ⟨h', heq', hbroken⟩ | ⟨stack, h', heq', ho', hle', hstack⟩
  · rw [heq']
    exact .inl ⟨hcalls, h', rfl, hbroken⟩
  rw [heq']
  dsimp only
  rcases buildResult_spec (decide (path.head? = some slash)) (by simp [hb]) ho' hle' with
    ⟨h'', heq'', hbroken⟩ | ⟨b, h'', heq'', ho'', hle''⟩
  · exact .inl ⟨hcalls, h'', heq'', hbroken⟩
  · refine .inr ⟨b, h'', ?_, ho'', hle''⟩
    rw [heq'']
    have htext : stack.elems.map Prod.snd =
        ((Vfs.components path).foldl (pushComponent (decide (path.head? = some slash))) []).reverse := by
      rw [← List.reverse_reverse (stack.elems.map Prod.snd), ← htexts]
      exact congrArg List.reverse hstack
    rw [htext]
    simp only [Vfs.simplifyPath, resultText, decide_eq_true_eq]

end

/-- Everything is released once, and nothing is read that was released. -/
theorem releasesOnce_iff {fails : Nat} {path : List UInt8} (hmade : fails < (Allocs.simplifyPath fails path).2.calls) :
    (Allocs.simplifyPath fails path).1 = none ∧ Clean (Allocs.simplifyPath fails path).2.trace ↔
      fails < splitCalls path := by
  rcases simplifyPath_spec fails path with
    ⟨hlt, h, heq, ho⟩ | ⟨hle, h, heq, hbroken⟩ | ⟨b, h, heq, -, hle⟩
  · rw [heq]
    exact iff_of_true ⟨rfl, ho.ledger.clean⟩ hlt
  · rw [heq]
    exact iff_of_false (fun hp => hbroken.not_clean hp.2) (Nat.not_lt.2 hle)
  · rw [heq] at hmade
    exact absurd hmade (Nat.not_lt.2 hle)

/-- There is no memory for the array of components when the first, empty, component of `/a` was copied. -/
theorem releasesOnce_split :
    (Allocs.simplifyPath 1 [slash, 97]).1 = none ∧ Clean (Allocs.simplifyPath 1 [slash, 97]).2.trace :=
  (releasesOnce_iff (by decide)).2 (by decide)

/-- The stack cannot grow: the component that was to go there is released twice. -/
theorem not_releasesOnce :
    ¬ ∀ fails path, fails < (Allocs.simplifyPath fails path).2.calls →
      (Allocs.simplifyPath fails path).1 = none ∧ Clean (Allocs.simplifyPath fails path).2.trace := by
  intro h
  have hstack := (h 3 [slash, 97] (by decide)).2
  exact absurd hstack (by decide)

end DBolOS.Vfs
