import DBolOS.Dev.Keyboard
import DBolOS.Lib.ByteMem

/-!
# The line buffer in memory

`terminal_struct_t` as the bytes from the address `t` of the active terminal on, with what `keyboard_handler` and
`read_terminal_input` write there.  The handler does not look at the length before it stores a character, so that the
character behind a full buffer is the low byte of the length itself.  The length is computed from the input alone as
long as it fits (`Level`), and that decides whether everything stays in its place (`kept_iff`).
-/

namespace DBolOS.LineBuffer

open ByteMem Keyboard

/-! ### The fields -/

def inputBufOffset : Nat := 4

def inputLenOffset : Nat := 260

def isInputReadyOffset : Nat := 264

def sizeofTerminalStruct : Nat := 284

/-- The memory, and the modifier keys. -/
structure Line where
  mem : ByteMem
  keyboard : KeyboardState

section Terminal

variable (t : Nat)

def inputLen (m : ByteMem) : UInt32 := read32 m (t + inputLenOffset)

def isInputReady (m : ByteMem) : Bool := m (t + isInputReadyOffset) != 0

/-- A store to `input_buf[i]`. -/
def putInput (m : ByteMem) (i : UInt32) (char : UInt8) : ByteMem :=
  writeBytes m ((t + inputBufOffset + i.toNat) % 2 ^ 32) [char]

/-- `input_buf[--input_len] = 0`. -/
def erase (m : ByteMem) : ByteMem :=
  putInput t (write32 m (t + inputLenOffset) (inputLen t m - 1)) (inputLen t m - 1) 0

/-- `input_buf[input_len++] = char`. -/
def storeChar (m : ByteMem) (char : UInt8) : ByteMem :=
  putInput t (write32 m (t + inputLenOffset) (inputLen t m + 1)) (inputLen t m) char

/-- The handler, and the indices of its stores to `input_buf`.  Waking the processes of the terminal leaves the terminal
alone. -/
def keyboardHandler (l : Line) (scanCode : UInt8) : Line × List Nat :=
  if released scanCode then ({ l with keyboard := l.keyboard.release scanCode }, [])
  else
    match l.keyboard.press scanCode with
    | some keyboard => ({ l with keyboard }, [])
    | none =>
      if keyMap scanCode = backspace then
        if inputLen t l.mem > 0 then ({ l with mem := erase t l.mem }, [(inputLen t l.mem - 1).toNat]) else (l, [])
      else
        let mem := storeChar t l.mem (l.keyboard.character scanCode)
        let mem := if keyMap scanCode = newline then writeBytes mem (t + isInputReadyOffset) [1] else mem
        ({ l with mem }, [(inputLen t l.mem).toNat])

/-- `read_terminal_input` at a test of its loop: without a line it goes on waiting, and with one it returns, having
cleared all of the buffer. -/
def readTerminalInput (l : Line) (count : UInt32) : (Line × List Nat) × Option (List UInt8) :=
  if isInputReady t l.mem then
    let copyLen := if count > inputLen t l.mem then inputLen t l.mem else count
    let bytes := readBytes l.mem (t + inputBufOffset) copyLen.toNat
    let mem := writeBytes l.mem (t + isInputReadyOffset) [0]
    let mem := writeBytes mem (t + inputBufOffset) (List.replicate INPUT_BUFFER_SIZE 0)
    let mem := write32 mem (t + inputLenOffset) 0
    (({ l with mem }, List.range INPUT_BUFFER_SIZE), some bytes)
  else ((l, []), none)

inductive Input
  | key (scanCode : UInt8)
  | read (count : UInt32)
  deriving DecidableEq

def step (l : Line) : Input → Line × List Nat
  | .key scanCode => keyboardHandler t l scanCode
  | .read count => (readTerminalInput t l count).1

def run (l : Line) (inputs : List Input) : Line := inputs.foldl (fun l i => (step t l i).1) l

end Terminal

/-- A key that changes a modifier. -/
def isModifier (scanCode : UInt8) : Bool := (KeyboardState.zero.press scanCode).isSome

/-- The character that an input stores. -/
def stores (l : Line) : Input → Option UInt8
  | .key scanCode =>
    if released scanCode || isModifier scanCode then none
    else if keyMap scanCode = backspace then none
    else some (l.keyboard.character scanCode)
  | .read _ => none

/-- Where everything stays in its place: the length is that of the buffer at most, the stores to the buffer are at its
indices, and a character that is stored changes nothing but the buffer and the length. -/
structure Kept (t : Nat) (l : Line) (i : Input) : Prop where
  length : (inputLen t (step t l i).1.mem).toNat ≤ INPUT_BUFFER_SIZE
  indices : ∀ k ∈ (step t l i).2, k < INPUT_BUFFER_SIZE
  fields : ∀ char ∈ stores l i, inputLen t (storeChar t l.mem char) = inputLen t l.mem + 1 ∧
    ∀ x, x < t + inputBufOffset ∨ t + isInputReadyOffset ≤ x → storeChar t l.mem char x = l.mem x

/-! ### The level of the input -/

/-- How many characters wait, and whether a line is among them. -/
abbrev Level := Nat × Bool

def Level.next (n : Level) : Input → Level
  | .key scanCode =>
    if released scanCode || isModifier scanCode then n
    else if keyMap scanCode = backspace then (n.1 - 1, n.2)
    else (n.1 + 1, n.2 || keyMap scanCode == newline)
  | .read _ => if n.2 then (0, false) else n

def level (inputs : List Input) : Nat := (inputs.foldl Level.next (0, false)).1

variable {t : Nat} {l : Line} {n : Level} {i : Input} {inputs : List Input}

private theorem press_isSome (k : KeyboardState) (scanCode : UInt8) :
    (k.press scanCode).isSome = isModifier scanCode := by
  unfold isModifier KeyboardState.press
  split_ifs <;> rfl

/-- The memory holds what waits. -/
structure Holds (t : Nat) (l : Line) (n : Level) : Prop where
  length : (inputLen t l.mem).toNat = n.1
  ready : isInputReady t l.mem = n.2

/-! ### What the stores keep -/

section Stores

variable {m : ByteMem} {k : UInt32} {char : UInt8}

/-- A store at an index of the buffer stays in the buffer. -/
private theorem putInput_outside (ht : t + sizeofTerminalStruct ≤ 2 ^ 32) (hk : k.toNat < INPUT_BUFFER_SIZE) {x : Nat}
    (hx : x < t + inputBufOffset ∨ t + inputLenOffset ≤ x) : putInput t m k char x = m x := by
  simp only [sizeofTerminalStruct, INPUT_BUFFER_SIZE, inputBufOffset, inputLenOffset] at ht hk hx
  unfold putInput
  apply writeBytes_outside
  rw [Nat.mod_eq_of_lt (by simp only [inputBufOffset]; omega)]
  simp only [inputBufOffset, List.length_singleton]
  omega

private theorem inputLen_putInput (ht : t + sizeofTerminalStruct ≤ 2 ^ 32) (hk : k.toNat < INPUT_BUFFER_SIZE) :
    inputLen t (putInput t m k char) = inputLen t m := by
  apply read32_congr
  intro x hx _
  exact putInput_outside ht hk (.inr hx)

private theorem storeChar_outside (ht : t + sizeofTerminalStruct ≤ 2 ^ 32)
    (hlen : (inputLen t m).toNat < INPUT_BUFFER_SIZE) {x : Nat}
    (hx : x < t + inputBufOffset ∨ t + isInputReadyOffset ≤ x) : storeChar t m char x = m x := by
  unfold storeChar
  simp only [inputBufOffset, isInputReadyOffset] at hx
  rw [putInput_outside ht hlen (by simp only [inputBufOffset, inputLenOffset]; omega), write32_outside]
  simp only [inputLenOffset]
  omega

theorem inputLen_storeChar (ht : t + sizeofTerminalStruct ≤ 2 ^ 32) (hlen : (inputLen t m).toNat < INPUT_BUFFER_SIZE) :
    inputLen t (storeChar t m char) = inputLen t m + 1 := by
  unfold storeChar
  rw [inputLen_putInput ht hlen]
  exact read32_write32 _ _ _

theorem isInputReady_storeChar (ht : t + sizeofTerminalStruct ≤ 2 ^ 32)
    (hlen : (inputLen t m).toNat < INPUT_BUFFER_SIZE) : isInputReady t (storeChar t m char) = isInputReady t m := by
  unfold isInputReady
  rw [storeChar_outside ht hlen (.inr (Nat.le_refl _))]

theorem toNat_sub_one (hpos : 0 < (inputLen t m).toNat) : (inputLen t m - 1).toNat = (inputLen t m).toNat - 1 := by
  rw [UInt32.toNat_sub_of_le]
  · rfl
  · exact UInt32.le_iff_toNat_le.2 hpos

theorem inputLen_erase (ht : t + sizeofTerminalStruct ≤ 2 ^ 32) (hpos : 0 < (inputLen t m).toNat)
    (hlen : (inputLen t m).toNat ≤ INPUT_BUFFER_SIZE) : inputLen t (erase t m) = inputLen t m - 1 := by
  unfold erase
  rw [inputLen_putInput ht (by rw [toNat_sub_one hpos]; omega)]
  exact read32_write32 _ _ _

theorem isInputReady_erase (ht : t + sizeofTerminalStruct ≤ 2 ^ 32) (hpos : 0 < (inputLen t m).toNat)
    (hlen : (inputLen t m).toNat ≤ INPUT_BUFFER_SIZE) : isInputReady t (erase t m) = isInputReady t m := by
  unfold isInputReady erase
  rw [putInput_outside ht (by rw [toNat_sub_one hpos]; omega)
    (by simp only [inputBufOffset, inputLenOffset, isInputReadyOffset]; omega), write32_outside]
  simp only [inputLenOffset, isInputReadyOffset]
  omega

end Stores

/-! ### One input -/

private theorem keyboardHandler_modifier {scanCode : UInt8} (hmod : (released scanCode || isModifier scanCode) = true) :
    ∃ keyboard, keyboardHandler t l scanCode = ({ l with keyboard }, []) := by
  unfold keyboardHandler
  split
  · exact ⟨_, rfl⟩
  · next hreleased =>
    have hpress : (l.keyboard.press scanCode).isSome = true := by
      rw [press_isSome]
      simpa [hreleased] using hmod
    obtain ⟨keyboard, hkeyboard⟩ := Option.isSome_iff_exists.1 hpress
    rw [hkeyboard]
    exact ⟨keyboard, rfl⟩

private theorem keyboardHandler_character {scanCode : UInt8}
    (hmod : (released scanCode || isModifier scanCode) = false) :
    keyboardHandler t l scanCode =
      if keyMap scanCode = backspace then
        if inputLen t l.mem > 0 then ({ l with mem := erase t l.mem }, [(inputLen t l.mem - 1).toNat]) else (l, [])
      else
        let mem := storeChar t l.mem (l.keyboard.character scanCode)
        let mem := if keyMap scanCode = newline then writeBytes mem (t + isInputReadyOffset) [1] else mem
        ({ l with mem }, [(inputLen t l.mem).toNat]) := by
  rw [Bool.or_eq_false_iff] at hmod
  have hpress : l.keyboard.press scanCode = none := by
    rw [← Option.isNone_iff_eq_none, ← Option.not_isSome, press_isSome, hmod.2]
    rfl
  unfold keyboardHandler
  rw [hpress, hmod.1]
  rfl

/-- A line is marked ready behind the buffer and the length. -/
theorem inputLen_setReady (m : ByteMem) (b : UInt8) :
    inputLen t (writeBytes m (t + isInputReadyOffset) [b]) = inputLen t m := by
  apply read32_congr
  intro x _ hx
  apply writeBytes_outside
  simp only [inputLenOffset, isInputReadyOffset] at hx ⊢
  omega

theorem isInputReady_setReady (m : ByteMem) (b : UInt8) :
    isInputReady t (writeBytes m (t + isInputReadyOffset) [b]) = (b != 0) := by
  unfold isInputReady
  rw [writeBytes_inside m (Nat.le_refl _) (by simp)]
  simp

private theorem Holds.read (h : Holds t l n) (hn : n.1 ≤ INPUT_BUFFER_SIZE)
    (count : UInt32) : Kept t l (.read count) ∧ Holds t (step t l (.read count)).1 (n.next (.read count)) := by
  obtain ⟨hlength, hready⟩ := h
  have hstores : ∀ char ∈ stores l (.read count), inputLen t (storeChar t l.mem char) = inputLen t l.mem + 1 ∧
      ∀ x, x < t + inputBufOffset ∨ t + isInputReadyOffset ≤ x → storeChar t l.mem char x = l.mem x := by
    intro char hchar
    cases hchar
  by_cases hr : isInputReady t l.mem = true
  · have hlevel : n.next (.read count) = (0, false) := by simp [Level.next, ← hready, hr]
    obtain ⟨mem, hmem⟩ : ∃ mem, mem = writeBytes (writeBytes l.mem (t + isInputReadyOffset) [0]) (t + inputBufOffset)
        (List.replicate INPUT_BUFFER_SIZE 0) := ⟨_, rfl⟩
    have hstep : step t l (.read count) =
        ({ l with mem := write32 mem (t + inputLenOffset) 0 }, List.range INPUT_BUFFER_SIZE) := by
      simp [step, readTerminalInput, hr, hmem]
    have hzero : inputLen t (write32 mem (t + inputLenOffset) 0) = 0 := read32_write32 _ _ _
    have hnot : isInputReady t (write32 mem (t + inputLenOffset) 0) = false := by
      unfold isInputReady
      rw [write32_outside _ (by simp only [inputLenOffset, isInputReadyOffset]; omega), hmem, writeBytes_outside,
        writeBytes_inside _ (Nat.le_refl _) (by simp)]
      · simp
      · simp only [inputBufOffset, isInputReadyOffset, INPUT_BUFFER_SIZE, List.length_replicate]
        omega
    rw [hlevel]
    refine ⟨⟨?_, ?_, hstores⟩, ?_⟩
    · rw [hstep, hzero]
      exact Nat.zero_le _
    · rw [hstep]
      intro k hk
      dsimp only at hk
      rwa [List.mem_range] at hk
    · rw [hstep]
      exact ⟨by rw [hzero]; rfl, hnot⟩
  · have hnot : n.2 = false := by rw [← hready]; simpa using hr
    have hstep : step t l (.read count) = (l, []) := by simp [step, readTerminalInput, hr]
    have hlevel : n.next (.read count) = n := by simp [Level.next, hnot]
    rw [hlevel]
    refine ⟨⟨?_, ?_, hstores⟩, ?_⟩
    · rw [hstep]
      exact hlength.trans_le hn
    · rw [hstep]
      intro k hk
      cases hk
    · rw [hstep]
      exact ⟨hlength, hready⟩

/-- Where the level stays within the buffer, a key leaves everything in its place. -/
private theorem Holds.key (ht : t + sizeofTerminalStruct ≤ 2 ^ 32) (h : Holds t l n) (hn : n.1 ≤ INPUT_BUFFER_SIZE)
    {scanCode : UInt8} (hnext : (n.next (.key scanCode)).1 ≤ INPUT_BUFFER_SIZE) :
    Kept t l (.key scanCode) ∧ Holds t (step t l (.key scanCode)).1 (n.next (.key scanCode)) := by
  obtain ⟨hlength, hready⟩ := h
  have hlen : (inputLen t l.mem).toNat ≤ INPUT_BUFFER_SIZE := hlength.trans_le hn
  cases hmod : released scanCode || isModifier scanCode with
  | true =>
    obtain ⟨keyboard, hstep⟩ := keyboardHandler_modifier (t := t) (l := l) hmod
    have hlevel : n.next (.key scanCode) = n := by simp [Level.next, hmod]
    have hstores : stores l (.key scanCode) = none := by simp [stores, hmod]
    rw [hlevel]
    refine ⟨⟨?_, ?_, ?_⟩, ?_⟩
    · rw [step, hstep]
      exact hlen
    · rw [step, hstep]
      intro k hk
      cases hk
    · rw [hstores]
      intro char hchar
      cases hchar
    · rw [step, hstep]
      exact ⟨hlength, hready⟩
  | false =>
    have hstep := keyboardHandler_character (t := t) (l := l) hmod
    by_cases hback : keyMap scanCode = backspace
    · have hlevel : n.next (.key scanCode) = (n.1 - 1, n.2) := by simp [Level.next, hmod, hback]
      have hstores : stores l (.key scanCode) = none := by simp [stores, hmod, hback]
      have hnone : ∀ char ∈ stores l (.key scanCode), inputLen t (storeChar t l.mem char) = inputLen t l.mem + 1 ∧
          ∀ x, x < t + inputBufOffset ∨ t + isInputReadyOffset ≤ x → storeChar t l.mem char x = l.mem x := by
        rw [hstores]
        intro char hchar
        cases hchar
      rw [if_pos hback] at hstep
      by_cases hpos : inputLen t l.mem > 0
      · have hpos' : 0 < (inputLen t l.mem).toNat := hpos
        rw [if_pos hpos] at hstep
        have hlen' := inputLen_erase ht hpos' hlen
        refine ⟨⟨?_, ?_, hnone⟩, ?_⟩
        · rw [step, hstep, hlen', toNat_sub_one hpos']
          omega
        · rw [step, hstep]
          intro k hk
          rw [List.mem_singleton.1 hk, toNat_sub_one hpos']
          omega
        · rw [step, hstep, hlevel]
          exact ⟨by rw [hlen', toNat_sub_one hpos', hlength], (isInputReady_erase ht hpos' hlen).trans hready⟩
      · have hzero : (inputLen t l.mem).toNat = 0 := by
          have hnot : ¬ 0 < (inputLen t l.mem).toNat := hpos
          omega
        rw [if_neg hpos] at hstep
        refine ⟨⟨?_, ?_, hnone⟩, ?_⟩
        · rw [step, hstep]
          exact hlen
        · rw [step, hstep]
          intro k hk
          cases hk
        · rw [step, hstep, hlevel]
          exact ⟨by rw [hzero]; omega, hready⟩
    · have hlevel : n.next (.key scanCode) = (n.1 + 1, n.2 || keyMap scanCode == newline) := by
        simp [Level.next, hmod, hback]
      rw [hlevel] at hnext ⊢
      have hroom : (inputLen t l.mem).toNat < INPUT_BUFFER_SIZE := hlength.trans_lt hnext
      rw [if_neg hback] at hstep
      have hsucc : (inputLen t l.mem + 1).toNat = n.1 + 1 := by
        rw [UInt32.toNat_add, hlength]
        simp only [INPUT_BUFFER_SIZE] at hnext
        have hone : (1 : UInt32).toNat = 1 := rfl
        omega
      have hfinal : ∀ mem, mem = (if keyMap scanCode = newline then
          writeBytes (storeChar t l.mem (l.keyboard.character scanCode)) (t + isInputReadyOffset) [1]
          else storeChar t l.mem (l.keyboard.character scanCode)) →
          inputLen t mem = inputLen t l.mem + 1 ∧ isInputReady t mem = (n.2 || keyMap scanCode == newline) := by
        intro mem hmem
        split at hmem
        · next hnewline =>
          rw [hmem, inputLen_setReady, inputLen_storeChar ht hroom, isInputReady_setReady]
          simp [hnewline]
        · next hnewline =>
          rw [hmem, inputLen_storeChar ht hroom, isInputReady_storeChar ht hroom, hready]
          simp [hnewline]
      obtain ⟨hlen', hready'⟩ := hfinal _ rfl
      refine ⟨⟨?_, ?_, ?_⟩, ?_⟩
      · rw [step, hstep, hlen', hsucc]
        exact hnext
      · rw [step, hstep]
        intro k hk
        rw [List.mem_singleton.1 hk]
        exact hroom
      · intro char _
        exact ⟨inputLen_storeChar ht hroom, fun x hx => storeChar_outside ht hroom hx⟩
      · rw [step, hstep]
        exact ⟨by rw [hlen', hsucc], hready'⟩

private theorem Holds.step (ht : t + sizeofTerminalStruct ≤ 2 ^ 32) (h : Holds t l n) (hn : n.1 ≤ INPUT_BUFFER_SIZE)
    (hnext : (n.next i).1 ≤ INPUT_BUFFER_SIZE) : Kept t l i ∧ Holds t (step t l i).1 (n.next i) := by
  cases i with
  | read count => exact h.read hn count
  | key scanCode => exact h.key ht hn hnext

/-- Only a character can lift the level above the buffer, and it is then stored behind the buffer. -/
private theorem Holds.not_kept (h : Holds t l n) (hn : n.1 ≤ INPUT_BUFFER_SIZE)
    (hnext : ¬ (n.next i).1 ≤ INPUT_BUFFER_SIZE) :
    ¬ Kept t l i := by
  cases i with
  | read count =>
    refine absurd ?_ hnext
    simp only [Level.next]
    split
    · exact Nat.zero_le _
    · exact hn
  | key scanCode =>
    cases hmod : released scanCode || isModifier scanCode with
    | true => simp [Level.next, hmod, hn] at hnext
    | false =>
      by_cases hback : keyMap scanCode = backspace
      · simp [Level.next, hmod, hback] at hnext
        omega
      · simp [Level.next, hmod, hback] at hnext
        intro hkept
        have hindex := hkept.indices (inputLen t l.mem).toNat (by
          rw [LineBuffer.step, keyboardHandler_character hmod, if_neg hback]
          exact List.mem_singleton_self _)
        rw [h.length] at hindex
        omega

/-! ### Runs -/

/-- Everything stays in its place at each input of a run. -/
def AllKept (t : Nat) (l : Line) (inputs : List Input) : Prop :=
  ∀ pre i suf, inputs = pre ++ i :: suf → Kept t (run t l pre) i

private theorem allKept_cons : AllKept t l (i :: inputs) ↔ Kept t l i ∧ AllKept t (step t l i).1 inputs := by
  constructor
  · intro h
    refine ⟨h [] i inputs rfl, ?_⟩
    intro pre j suf hsplit
    exact h (i :: pre) j suf (by rw [hsplit]; rfl)
  · intro h pre j suf hsplit
    cases pre with
    | nil =>
      obtain ⟨rfl, -⟩ := List.cons.inj hsplit
      exact h.1
    | cons x pre =>
      obtain ⟨rfl, hrest⟩ := List.cons.inj hsplit
      exact h.2 pre j suf hrest

private theorem kept_iff (ht : t + sizeofTerminalStruct ≤ 2 ^ 32) (h : Holds t l n) (hn : n.1 ≤ INPUT_BUFFER_SIZE) :
    AllKept t l inputs ↔ ∀ pre, pre <+: inputs → (pre.foldl Level.next n).1 ≤ INPUT_BUFFER_SIZE := by
  induction inputs generalizing l n with
  | nil =>
    constructor
    · intro _ pre hpre
      rw [List.prefix_nil.1 hpre]
      exact hn
    · intro _ pre i suf hsplit
      simp at hsplit
  | cons i inputs ih =>
    rw [allKept_cons]
    constructor
    · intro hkept pre hpre
      cases pre with
      | nil => exact hn
      | cons j pre =>
        obtain ⟨rfl, htail⟩ := List.cons_prefix_cons.1 hpre
        by_cases hnext : (n.next j).1 ≤ INPUT_BUFFER_SIZE
        · exact (ih (h.step ht hn hnext).2 hnext).1 hkept.2 pre htail
        · exact absurd hkept.1 (h.not_kept hn hnext)
    · intro hlevel
      have hnext : (n.next i).1 ≤ INPUT_BUFFER_SIZE := hlevel [i] (List.cons_prefix_cons.2 ⟨rfl, List.nil_prefix⟩)
      obtain ⟨hkept, hholds⟩ := h.step ht hn hnext
      refine ⟨hkept, (ih hholds hnext).2 ?_⟩
      intro pre hpre
      exact hlevel (i :: pre) (List.cons_prefix_cons.2 ⟨rfl, hpre⟩)

/-- From an empty buffer on, for any keys and reads in any order: everything stays in its place exactly when never more
characters wait than the buffer has places. -/
theorem keyboardInput_kept_iff (ht : t + sizeofTerminalStruct ≤ 2 ^ 32) (hlen : inputLen t l.mem = 0)
    (hready : isInputReady t l.mem = false) (inputs : List Input) :
    AllKept t l inputs ↔ ∀ pre, pre <+: inputs → level pre ≤ INPUT_BUFFER_SIZE :=
  kept_iff ht ⟨by rw [hlen]; rfl, hready⟩ (Nat.zero_le _)

private theorem level_letters (k : Nat) :
    (List.replicate k (Input.key 0x1e)).foldl Level.next (0, false) = (k, false) := by
  induction k with
  | zero => rfl
  | succ k ih =>
    rw [List.replicate_succ', List.foldl_append, ih]
    rfl

/-- The key `a` and Enter, and a read. -/
theorem keyboardInput_kept : AllKept 0 ⟨fun _ => 0, .zero⟩ [.key 0x1e, .key 0x1c, .read 10] := by
  have hlen : inputLen 0 (fun _ => 0) = 0 := rfl
  refine (@keyboardInput_kept_iff 0 ⟨fun _ => 0, .zero⟩ (by decide) hlen rfl _).2 ?_
  intro pre hpre
  have hmem : pre ∈ ([.key 0x1e, .key 0x1c, .read 10] : List Input).inits := (List.mem_inits _ _).2 hpre
  have hall : ∀ pre ∈ ([.key 0x1e, .key 0x1c, .read 10] : List Input).inits, level pre ≤ INPUT_BUFFER_SIZE := by decide
  exact hall pre hmem

/-- The letter `a` typed 257 times: the last one is stored in the length. -/
theorem keyboardInput_not_kept : ¬ AllKept 0 ⟨fun _ => 0, .zero⟩ (List.replicate 257 (.key 0x1e)) := by
  intro h
  have hlevel := (kept_iff (t := 0) (n := (0, false)) (by decide) ⟨rfl, rfl⟩ (Nat.zero_le _)).1 h _ (List.prefix_refl _)
  rw [level_letters] at hlevel
  exact absurd hlevel (by decide)

end DBolOS.LineBuffer
