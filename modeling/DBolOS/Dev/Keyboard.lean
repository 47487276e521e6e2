import Mathlib

/-!
# The keyboard

`keyboard.c`: the state of the modifier keys and the character that a scan code stands for.  What the handler does
with the character is in `Dev/Terminal.lean`.
-/

namespace DBolOS

/-- The size of `input_buf` of a terminal. -/
def INPUT_BUFFER_SIZE : Nat := 256

namespace Keyboard

def backspace : UInt8 := 8

def newline : UInt8 := 10

/-- `key_map`, in ASCII; what is not listed is `0`. -/
def keyMapInit : List UInt8 :=
  [0, 27, 49, 50, 51, 52, 53, 54, 55, 56,
    57, 48, 45, 61, 8,
    9,
    113, 119, 101, 114,
    116, 121, 117, 105, 111, 112, 91, 93, 10,
    0, -- control
    97, 115, 100, 102, 103, 104, 106, 107, 108, 59,
    39, 96, 0, -- left shift
    92, 122, 120, 99, 118, 98, 110,
    109, 44, 46, 47, 0, -- right shift
    42,
    0, -- alt
    32,
    0, -- caps lock
    0, 0, 0, 0, 0, 0, 0, 0, 0, 0, -- F1 to F10
    0, -- num lock
    0, -- scroll lock
    0, 0, 0, 45, 0, 0, 0, 43]

/-- `key_map_shift`. -/
def keyMapShiftInit : List UInt8 :=
  [0, 27, 33, 64, 35, 36, 37, 94, 38, 42,
    40, 41, 95, 43, 8,
    9,
    81, 87, 69, 82,
    84, 89, 85, 73, 79, 80, 123, 125, 10,
    0, -- control
    65, 83, 68, 70, 71, 72, 74, 75, 76, 58,
    34, 126, 0, -- left shift
    124, 90, 88, 67, 86, 66, 78,
    77, 60, 62, 63, 0, -- right shift
    42,
    0, -- alt
    32,
    0, -- caps lock
    0, 0, 0, 0, 0, 0, 0, 0, 0, 0, -- F1 to F10
    0, -- num lock
    0, -- scroll lock
    55, 56, 57, 45, 52, 53, 54, 43, 49, 50, 51, 48, 44]

def keyMap (scanCode : UInt8) : UInt8 := keyMapInit.getD scanCode.toNat 0

def keyMapShift (scanCode : UInt8) : UInt8 := keyMapShiftInit.getD scanCode.toNat 0

/-- The flags of `keyboard_state` that the handler stores. -/
structure KeyboardState where
  leftShiftPressed : Bool
  rightShiftPressed : Bool
  ctrlPressed : Bool
  altPressed : Bool
  numLockPressed : Bool
  capsLockPressed : Bool
  scrollLockPressed : Bool
  deriving DecidableEq

def KeyboardState.zero : KeyboardState := ⟨false, false, false, false, false, false, false⟩

/-- The codes of released keys have the top bit. -/
def released (scanCode : UInt8) : Bool := scanCode &&& 0x80 != 0

namespace KeyboardState

/-- The switch over the codes of released keys.  Three of its cases have no top bit and are never taken. -/
def release (k : KeyboardState) (scanCode : UInt8) : KeyboardState :=
  if scanCode = 0xaa then { k with leftShiftPressed := false }
  else if scanCode = 0xb6 then { k with rightShiftPressed := false }
  else if scanCode = 0x9d then { k with ctrlPressed := false }
  else if scanCode = 0xb8 then { k with altPressed := false }
  else if scanCode = 0x45 then { k with numLockPressed := false }
  else if scanCode = 0x3a then { k with capsLockPressed := false }
  else if scanCode = 0x46 then { k with scrollLockPressed := false }
  else k

/-- The switch over the codes of pressed keys; `none` is its `default`. -/
def press (k : KeyboardState) (scanCode : UInt8) : Option KeyboardState :=
  if scanCode = 0x2a then some { k with leftShiftPressed := true }
  else if scanCode = 0x36 then some { k with rightShiftPressed := true }
  else if scanCode = 0x1d then some { k with ctrlPressed := true }
  else if scanCode = 0x38 then some { k with altPressed := true }
  else if scanCode = 0x45 then some { k with numLockPressed := true }
  else if scanCode = 0x3a then some { k with capsLockPressed := !k.capsLockPressed }
  else if scanCode = 0x46 then some { k with scrollLockPressed := true }
  else none

def shiftPressed (k : KeyboardState) : Bool := k.leftShiftPressed || k.rightShiftPressed

/-- The character stored for a key that is no modifier. -/
def character (k : KeyboardState) (scanCode : UInt8) : UInt8 :=
  let letter := decide (97 ≤ keyMap scanCode ∧ keyMap scanCode ≤ 122)
  if (k.capsLockPressed && letter && !k.shiftPressed) || k.shiftPressed then keyMapShift scanCode
  else keyMap scanCode

/-- What a scan code types: nothing for a released key, a modifier, or a key without a character. -/
def typed (k : KeyboardState) (scanCode : UInt8) : Option UInt8 :=
  if released scanCode then none
  else if (k.press scanCode).isSome then none
  else if keyMap scanCode = backspace then some backspace
  else if k.character scanCode = 0 then none
  else some (k.character scanCode)

end KeyboardState

/-- Enter and backspace do not depend on the modifiers. -/
private theorem keyMapShift_special : ∀ scanCode : Fin 256, (keyMapShift (UInt8.ofNat scanCode) = newline ↔
    keyMap (UInt8.ofNat scanCode) = newline) ∧ (keyMapShift (UInt8.ofNat scanCode) = backspace ↔
    keyMap (UInt8.ofNat scanCode) = backspace) := by
  decide +kernel

theorem character_eq_newline_iff {k : KeyboardState} {scanCode : UInt8} :
    k.character scanCode = newline ↔ keyMap scanCode = newline := by
  have hshift := (keyMapShift_special ⟨scanCode.toNat, scanCode.toNat_lt⟩).1
  rw [UInt8.ofNat_toNat] at hshift
  unfold KeyboardState.character
  dsimp only
  split
  · exact hshift
  · exact Iff.rfl

theorem character_eq_backspace_iff {k : KeyboardState} {scanCode : UInt8} :
    k.character scanCode = backspace ↔ keyMap scanCode = backspace := by
  have hshift := (keyMapShift_special ⟨scanCode.toNat, scanCode.toNat_lt⟩).2
  rw [UInt8.ofNat_toNat] at hshift
  unfold KeyboardState.character
  dsimp only
  split
  · exact hshift
  · exact Iff.rfl

end Keyboard

end DBolOS
