import DBolOS.Lib.Loop
import DBolOS.Lib.Wrap

/-!
# The text screen

`vga.c`: a window of 25 rows of 80 cells in the memory of the adapter.  A write outside the 2000 cells is `none`.

The main result is `putchars_refines`: after any bytes the cursor is on the screen, and after any bytes without a
backspace the screen shows the last 25 rows of the text (`Shows`).
-/

namespace DBolOS.Vga

abbrev screenWidth : Nat := 80

abbrev screenHeight : Nat := 25

structure VgaChar where
  asciiCode : UInt8
  color : UInt8
  deriving DecidableEq

def colorBlack : UInt8 := 0x00

def colorWhite : UInt8 := 0x0f

def emptyChar : VgaChar := { asciiCode := 0x20, color := colorWhite }

/-- `vga_buffer`, the two counters, and the registers 14 and 15 of the adapter with the position of its cursor. -/
structure Screen where
  buffer : Nat → VgaChar
  currColumn : Nat
  currRow : Nat
  cursorHigh : Nat
  cursorLow : Nat

namespace Screen

/-- A store to `vga_buffer[index]`. -/
def put (s : Screen) (index : Nat) (ch : VgaChar) : Option Screen :=
  if index < screenHeight * screenWidth then some { s with buffer := Function.update s.buffer index ch } else none

def moveCursor (s : Screen) (x y : Nat) : Screen :=
  let pos := (y * screenWidth + x) % 2 ^ 16
  { s with cursorLow := pos % 256, cursorHigh := pos / 256 % 256 }

def updateCursor (s : Screen) : Screen := s.moveCursor s.currColumn s.currRow

def vgaInit (s : Screen) : Option Screen := do
  let s ← Loop.times (fun row => Loop.times (fun col s => s.put (row * screenWidth + col) emptyChar) screenWidth)
    screenHeight s
  some { s with currColumn := 0, currRow := 0 }

/-- The loop over the rows starts at 1. -/
def vgaScroll (s : Screen) : Option Screen := do
  let s ← Loop.times (fun i => Loop.times (fun col s =>
    let row := i + 1
    s.put ((row - 1) * screenWidth + col) (s.buffer (row * screenWidth + col))) screenWidth) (screenHeight - 1) s
  Loop.times (fun col s => s.put ((screenHeight - 1) * screenWidth + col) emptyChar) screenWidth s

def vgaLineDown (s : Screen) : Option Screen :=
  let s := { s with currColumn := 0 }
  if s.currRow = screenHeight - 1 then s.vgaScroll else some { s with currRow := (s.currRow + 1) % 2 ^ 16 }

def vgaDelChar (s : Screen) : Option Screen := do
  let s :=
    if s.currColumn = 0 then
      if 0 < s.currRow then { s with currRow := s.currRow - 1, currColumn := screenWidth - 1 } else s
    else { s with currColumn := s.currColumn - 1 }
  let s ← s.put (s.currColumn + s.currRow * screenWidth) emptyChar
  some s.updateCursor

def vgaPutcharColored (s : Screen) (c bg chColor : UInt8) : Option Screen :=
  if c = 0x0a then do
    let s ← s.vgaLineDown
    some s.updateCursor
  else if c = 0x08 then s.vgaDelChar
  else do
    let s ←
      (if s.currColumn = screenWidth then s.vgaLineDown
      else if s.currRow = screenHeight then do
        let s ← vgaScroll { s with currColumn := 0 }
        some { s with currRow := (s.currRow + 2 ^ 16 - 1) % 2 ^ 16 }
      else some s)
    let s ← s.put (s.currColumn + s.currRow * screenWidth) { asciiCode := c, color := chColor ||| bg <<< 4 }
    some (updateCursor { s with currColumn := (s.currColumn + 1) % 2 ^ 16 })

def vgaPutchar (s : Screen) (c : UInt8) : Option Screen := s.vgaPutcharColored c colorBlack colorWhite

end Screen

/-- The bytes sent to `vga_putchar` one after the other. -/
def putchars (s : Screen) (bytes : List UInt8) : Option Screen := bytes.foldlM Screen.vgaPutchar s

/-! ### The loops over the cells -/

namespace Screen

variable {s s' : Screen}

theorem put_eq {index : Nat} (ch : VgaChar) (h : index < screenHeight * screenWidth) :
    s.put index ch = some { s with buffer := Function.update s.buffer index ch } :=
  if_pos h

/-- A loop that stores to `n` cells from `base`, each value read from cells that no earlier round has stored to. -/
private theorem times_put {base n : Nat} (hn : base + n ≤ screenHeight * screenWidth) (value : Nat → Screen → VgaChar)
    (new : Nat → VgaChar) (hvalue : ∀ i t, i < n → (∀ j, base + i ≤ j → t.buffer j = s.buffer j) →
      value i t = new (base + i)) :
    Loop.times (fun col t => t.put (base + col) (value col t)) n s = some
      { s with buffer := fun j => if base ≤ j ∧ j < base + n then new j else s.buffer j } := by
  let after (i : Nat) : Screen := { s with buffer := fun j => if base ≤ j ∧ j < base + i then new j else s.buffer j }
  have hzero : after 0 = s := by
    have hnone : ∀ j, ¬(base ≤ j ∧ j < base + 0) := fun j => by omega
    simp only [after, hnone, if_false]
  have hrow : Loop.times (fun col t => t.put (base + col) (value col t)) n (after 0) = some (after n) := by
    refine Loop.times_eq after ?_
    intro i hi
    rw [hvalue i _ hi (fun j hj => if_neg (by omega)), put_eq _ (by omega)]
    simp only [after, Option.some.injEq, Screen.mk.injEq, and_self, and_true]
    funext j
    by_cases hj : j = base + i
    · subst hj
      rw [Function.update_self, if_pos (by omega)]
    · rw [Function.update_of_ne hj]
      exact if_congr (by omega) rfl rfl
  rw [hzero] at hrow
  exact hrow

theorem vgaInit_eq (s : Screen) : s.vgaInit = some { s with
    buffer := fun j => if j < screenHeight * screenWidth then emptyChar else s.buffer j
    currColumn := 0
    currRow := 0 } := by
  let after (i : Nat) : Screen :=
    { s with buffer := fun j => if j < i * screenWidth then emptyChar else s.buffer j }
  have hzero : after 0 = s := by simp only [after, Nat.zero_mul, Nat.not_lt_zero, if_false]
  have hrows : Loop.times (fun row =>
      Loop.times (fun col t => t.put (row * screenWidth + col) emptyChar) screenWidth) screenHeight (after 0) =
      some (after screenHeight) := by
    refine Loop.times_eq after ?_
    intro i hi
    simp only [screenHeight] at hi
    rw [times_put (by simp only [screenHeight, screenWidth]; omega) _ (fun _ => emptyChar) (fun _ _ _ _ => rfl)]
    simp only [after, Option.some.injEq, Screen.mk.injEq, and_self, and_true, screenWidth]
    funext j
    grind
  rw [hzero] at hrows
  rw [vgaInit, hrows]
  rfl

theorem vgaScroll_eq (s : Screen) : s.vgaScroll = some { s with
    buffer := fun j =>
      if j < (screenHeight - 1) * screenWidth then s.buffer (j + screenWidth)
      else if j < screenHeight * screenWidth then emptyChar
      else s.buffer j } := by
  let after (i : Nat) : Screen :=
    { s with buffer := fun j => if j < i * screenWidth then s.buffer (j + screenWidth) else s.buffer j }
  have hzero : after 0 = s := by simp only [after, Nat.zero_mul, Nat.not_lt_zero, if_false]
  have hrows : Loop.times (fun i => Loop.times (fun col t => t.put ((i + 1 - 1) * screenWidth + col)
      (t.buffer ((i + 1) * screenWidth + col))) screenWidth) (screenHeight - 1) (after 0) =
      some (after (screenHeight - 1)) := by
    refine Loop.times_eq after ?_
    intro i hi
    simp only [screenHeight] at hi
    rw [Nat.add_sub_cancel, times_put (by simp only [screenHeight, screenWidth]; omega) _
      (fun j => s.buffer (j + screenWidth))]
    · simp only [after, Option.some.injEq, Screen.mk.injEq, and_self, and_true, screenWidth]
      funext j
      grind
    · intro col t hcol ht
      simp only [after, screenWidth] at hcol ht ⊢
      have hcell : (i + 1) * 80 + col = i * 80 + col + 80 := by omega
      rw [ht _ (by omega), hcell, if_neg (by omega)]
  rw [hzero] at hrows
  simp only [vgaScroll, hrows, Option.bind_eq_bind, Option.bind_some]
  rw [times_put (by decide) _ (fun _ => emptyChar) (fun _ _ _ _ => rfl)]
  simp only [after, Option.some.injEq, Screen.mk.injEq, and_self, and_true, screenWidth, screenHeight]
  funext j
  grind

/-! ### The cursor stays on the screen -/

/-- Column 80 is the end of a full row: the cursor leaves it with the next character only. -/
structure Bounded (s : Screen) : Prop where
  row : s.currRow < screenHeight
  column : s.currColumn ≤ screenWidth

theorem Bounded.updateCursor (h : s.Bounded) : s.updateCursor.Bounded := ⟨h.row, h.column⟩

theorem Bounded.vgaLineDown (h : s.Bounded) :
    ∃ s', s.vgaLineDown = some s' ∧ s'.Bounded ∧ s'.currColumn = 0 := by
  have hrow := h.row
  rw [Screen.vgaLineDown]
  split
  · rw [vgaScroll_eq]
    exact ⟨_, rfl, ⟨hrow, Nat.zero_le _⟩, rfl⟩
  · next hlast =>
    refine ⟨_, rfl, ⟨?_, Nat.zero_le _⟩, rfl⟩
    simp only [screenHeight] at hrow hlast ⊢
    omega

private theorem Bounded.vgaDelChar (h : s.Bounded) : ∃ s', s.vgaDelChar = some s' ∧ s'.Bounded := by
  obtain ⟨hrow, hcolumn⟩ := h
  simp only [screenHeight, screenWidth] at hrow hcolumn
  rw [Screen.vgaDelChar]
  split
  · split
    · rw [put_eq _ (by simp only [screenHeight, screenWidth]; omega)]
      refine ⟨_, rfl, ?_, ?_⟩ <;> simp only [Screen.updateCursor, moveCursor, screenHeight, screenWidth] <;> omega
    · rw [put_eq _ (by simp only [screenHeight, screenWidth]; omega)]
      exact ⟨_, rfl, hrow, hcolumn⟩
  · rw [put_eq _ (by simp only [screenHeight, screenWidth]; omega)]
    refine ⟨_, rfl, hrow, ?_⟩
    simp only [Screen.updateCursor, moveCursor, screenWidth]
    omega

/-- A character that is neither a newline nor a backspace. -/
def Printed (c : UInt8) : Prop := c ≠ 0x0a ∧ c ≠ 0x08

theorem vgaPutcharColored_of_printed {c : UInt8} (hc : Printed c) (h : s.Bounded) (bg chColor : UInt8) :
    s.vgaPutcharColored c bg chColor = (do
      let s ← (if s.currColumn = screenWidth then s.vgaLineDown else some s)
      let s ← s.put (s.currColumn + s.currRow * screenWidth) { asciiCode := c, color := chColor ||| bg <<< 4 }
      some (updateCursor { s with currColumn := (s.currColumn + 1) % 2 ^ 16 })) := by
  rw [vgaPutcharColored, if_neg hc.1, if_neg hc.2, if_neg h.row.ne]

private theorem Bounded.vgaPutcharColored (h : s.Bounded) (c bg chColor : UInt8) :
    ∃ s', s.vgaPutcharColored c bg chColor = some s' ∧ s'.Bounded := by
  by_cases hnewline : c = 0x0a
  · obtain ⟨s', hs', hbounded, -⟩ := h.vgaLineDown
    refine ⟨s'.updateCursor, ?_, hbounded.updateCursor⟩
    rw [Screen.vgaPutcharColored, if_pos hnewline, hs']
    rfl
  by_cases hbackspace : c = 0x08
  · rw [Screen.vgaPutcharColored, if_neg hnewline, if_pos hbackspace]
    exact h.vgaDelChar
  have hroom : ∃ t, (if s.currColumn = screenWidth then s.vgaLineDown else some s) = some t ∧ t.Bounded ∧
      t.currColumn < screenWidth := by
    split
    · obtain ⟨t, ht, hbounded, hcolumn⟩ := h.vgaLineDown
      exact ⟨t, ht, hbounded, hcolumn ▸ by decide⟩
    · next hfull => exact ⟨s, rfl, h, lt_of_le_of_ne h.column hfull⟩
  obtain ⟨t, ht, ⟨hrow, -⟩, hcolumn⟩ := hroom
  simp only [screenHeight, screenWidth] at hrow hcolumn
  rw [vgaPutcharColored_of_printed ⟨hnewline, hbackspace⟩ h, ht]
  simp only [Option.bind_eq_bind, Option.bind_some]
  rw [put_eq _ (by simp only [screenHeight, screenWidth]; omega)]
  refine ⟨_, rfl, hrow, ?_⟩
  simp only [Screen.updateCursor, moveCursor, screenWidth]
  omega

end Screen

/-- Each byte ends with the registers of the adapter set. -/
private theorem exists_updateCursor {s s' : Screen} {c bg chColor : UInt8}
    (h : s.vgaPutcharColored c bg chColor = some s') :
    ∃ t : Screen, s' = t.updateCursor := by
  rw [Screen.vgaPutcharColored] at h
  split at h
  · obtain ⟨t, -, rfl⟩ := Option.bind_eq_some_iff.1 h |>.imp fun _ => And.imp_right fun h => (Option.some.inj h).symm
    exact ⟨t, rfl⟩
  · split at h
    · rw [Screen.vgaDelChar] at h
      obtain ⟨t, -, rfl⟩ := Option.bind_eq_some_iff.1 h |>.imp fun _ => And.imp_right fun h => (Option.some.inj h).symm
      exact ⟨t, rfl⟩
    · obtain ⟨t, -, h⟩ := Option.bind_eq_some_iff.1 h
      obtain ⟨u, -, h⟩ := Option.bind_eq_some_iff.1 h
      exact ⟨_, (Option.some.inj h).symm⟩

private theorem Screen.Bounded.cursor_eq {s : Screen} (h : s.updateCursor.Bounded) :
    s.updateCursor.cursorHigh * 256 + s.updateCursor.cursorLow =
      s.updateCursor.currRow * screenWidth + s.updateCursor.currColumn := by
  obtain ⟨hrow, hcolumn⟩ := h
  simp only [Screen.updateCursor, Screen.moveCursor, screenWidth, screenHeight] at hrow hcolumn ⊢
  omega

private theorem putchars_bounded {s : Screen} (h : s.Bounded) (bytes : List UInt8) :
    ∃ s', putchars s bytes = some s' ∧ s'.Bounded := by
  induction bytes generalizing s with
  | nil => exact ⟨s, rfl, h⟩
  | cons c bytes ih =>
    obtain ⟨t, ht, hbounded⟩ := h.vgaPutcharColored c colorBlack colorWhite
    obtain ⟨s', hs', hbounded'⟩ := ih hbounded
    exact ⟨s', by rw [putchars, List.foldlM_cons, Screen.vgaPutchar, ht]; exact hs', hbounded'⟩

/-! ### The text on the screen -/

/-- The character at `(r, c)` of a window on the last rows of a text. -/
def shown (rows : List (List UInt8)) (r c : Nat) : UInt8 :=
  ((rows.drop (rows.length - screenHeight))[r]?.getD [])[c]?.getD 0x20

/-- The screen shows the last rows of a text, the last of all with the cursor at its end. -/
structure Shows (s : Screen) (front : List (List UInt8)) (last : List UInt8) : Prop where
  row : s.currRow + 1 = min (front.length + 1) screenHeight
  column : s.currColumn = last.length
  fits : last.length ≤ screenWidth
  cells : ∀ r c, r < screenHeight → c < screenWidth → s.buffer (r * screenWidth + c) =
    { asciiCode := shown (front ++ [last]) r c, color := colorWhite }

namespace Shows

variable {s : Screen} {front : List (List UInt8)} {last : List UInt8}

private theorem bounded (h : Shows s front last) : s.Bounded := by
  obtain ⟨hrow, hcolumn, hfits, -⟩ := h
  exact ⟨by omega, by omega⟩

private theorem vgaInit (s : Screen) : ∃ s', s.vgaInit = some s' ∧ Shows s' [] [] := by
  refine ⟨_, s.vgaInit_eq, rfl, rfl, Nat.zero_le _, ?_⟩
  intro r c hr hc
  have hcell : r * screenWidth + c < screenHeight * screenWidth := by
    simp only [screenHeight, screenWidth] at hr hc ⊢
    omega
  have hblank : shown ([] ++ [[]]) r c = 0x20 := by cases r <;> simp [shown]
  simp only [hcell, if_true, hblank, emptyChar]

/-- A new row turns up below the window, or takes the next free row of it. -/
private theorem shown_newRow (rows : List (List UInt8)) (r c : Nat) : shown (rows ++ [[]]) r c =
    if rows.length < screenHeight then shown rows r c
    else if r + 1 < screenHeight then shown rows (r + 1) c
    else 0x20 := by
  simp only [shown, List.getElem?_drop, List.length_append, List.length_singleton]
  split
  · next hroom =>
    have hall : rows.length + 1 - screenHeight + r = r ∧ rows.length - screenHeight + r = r := by omega
    rw [hall.1, hall.2, List.getElem?_append]
    split
    · rfl
    · next hr =>
      rw [List.getElem?_eq_none (Nat.le_of_not_lt hr)]
      cases r - rows.length <;> simp
  · next hfull =>
    have hshift : rows.length + 1 - screenHeight + r = rows.length - screenHeight + (r + 1) := by omega
    rw [hshift, List.getElem?_append]
    split
    · rw [if_pos (by omega)]
    · rw [if_neg (by omega)]
      cases rows.length - screenHeight + (r + 1) - rows.length <;> simp

private theorem vgaLineDown (h : Shows s front last) :
    ∃ s', s.vgaLineDown = some s' ∧ Shows s' (front ++ [last]) [] := by
  obtain ⟨hrow, hcolumn, hfits, hcells⟩ := h
  rw [Screen.vgaLineDown]
  split
  · next hlast =>
    replace hlast : s.currRow = screenHeight - 1 := hlast
    rw [Screen.vgaScroll_eq]
    refine ⟨_, rfl, ?_, rfl, Nat.zero_le _, ?_⟩
    · simp only [List.length_append, List.length_singleton, screenHeight] at hrow hlast ⊢
      omega
    · intro r c hr hc
      rw [shown_newRow, if_neg (by rw [List.length_append, List.length_singleton]; omega)]
      simp only [screenHeight, screenWidth] at hr hc hcells ⊢
      by_cases hlastRow : r + 1 < 25
      · have hcell : r * 80 + c + 80 = (r + 1) * 80 + c := by omega
        rw [if_pos hlastRow, if_pos (by omega), hcell, hcells _ _ hlastRow hc]
      · rw [if_neg hlastRow, if_neg (by omega), if_pos (by omega), emptyChar]
  · next hlast =>
    replace hlast : ¬s.currRow = screenHeight - 1 := hlast
    have hroom : (front ++ [last]).length < screenHeight := by
      rw [List.length_append, List.length_singleton]
      omega
    refine ⟨_, rfl, ?_, rfl, Nat.zero_le _, ?_⟩
    · simp only [List.length_append, List.length_singleton, screenHeight] at hrow hlast hroom ⊢
      omega
    · intro r c hr hc
      rw [shown_newRow, if_pos hroom]
      exact hcells r c hr hc

/-- One character more in the last row changes the cell behind it. -/
private theorem shown_char (front : List (List UInt8)) (last : List UInt8) (ch : UInt8) {r : Nat}
    (hr : r < screenHeight)
    (c : Nat) : shown (front ++ [last ++ [ch]]) r c =
      if r + 1 = min (front.length + 1) screenHeight ∧ c = last.length then ch else shown (front ++ [last]) r c := by
  simp only [shown, List.getElem?_drop, List.length_append, List.length_singleton]
  rw [List.getElem?_append, List.getElem?_append]
  split
  · next hfront => rw [if_neg (by omega)]
  · next hfront =>
    by_cases hlast : front.length + 1 - screenHeight + r = front.length
    · have hrow : r + 1 = min (front.length + 1) screenHeight := by omega
      simp only [hlast, Nat.sub_self, hrow, true_and, List.getElem?_cons_zero, Option.getD_some]
      rw [List.getElem?_append]
      split
      · next hc => rw [if_neg (by omega)]
      · next hc =>
        by_cases hend : c = last.length
        · simp [hend]
        · rw [if_neg hend, List.getElem?_eq_none (by rw [List.length_singleton]; omega),
            List.getElem?_eq_none (Nat.le_of_not_lt hc)]
    · have hbelow : ∀ row : List UInt8, [row][front.length + 1 - screenHeight + r - front.length]? = none :=
        fun row => List.getElem?_eq_none (by rw [List.length_singleton]; omega)
      rw [if_neg (by omega), hbelow, hbelow]

private theorem put (h : Shows s front last) (hroom : last.length < screenWidth) (ch : UInt8) :
    ∃ s', s.put (s.currColumn + s.currRow * screenWidth) { asciiCode := ch, color := colorWhite } = some s' ∧
      Shows (Screen.updateCursor { s' with currColumn := (s'.currColumn + 1) % 2 ^ 16 }) front (last ++ [ch]) := by
  obtain ⟨hrow, hcolumn, hfits, hcells⟩ := h
  simp only [screenHeight, screenWidth] at hrow hroom hcells
  refine ⟨_, Screen.put_eq _ (by simp only [screenHeight, screenWidth]; omega), hrow, ?_, ?_, ?_⟩
  · simp only [Screen.updateCursor, Screen.moveCursor, List.length_append, List.length_singleton]
    omega
  · simp only [List.length_append, List.length_singleton, screenWidth]
    omega
  · intro r c hr hc
    rw [shown_char front last ch hr]
    simp only [Screen.updateCursor, Screen.moveCursor, screenHeight, screenWidth] at hr hc ⊢
    rw [Function.update_apply]
    by_cases hcell : r * 80 + c = s.currColumn + s.currRow * 80
    · rw [if_pos hcell, if_pos (by omega)]
    · rw [if_neg hcell, if_neg (by omega), hcells r c hr hc]

/-- A character that is not a backspace goes to the end of the text. -/
private theorem vgaPutchar {bytes : List UInt8} (h : Shows s front last)
    (hrows : Wrap.rows screenWidth (· == 0x0a) bytes = front ++ [last]) {c : UInt8} (hc : c ≠ 0x08) :
    ∃ s' front' last', s.vgaPutchar c = some s' ∧
      Wrap.rows screenWidth (· == 0x0a) (bytes ++ [c]) = front' ++ [last'] ∧ Shows s' front' last' := by
  obtain ⟨front₁, last₁, hrows₁, -, hsnoc⟩ :=
    @Wrap.rows_snoc _ screenWidth (· == 0x0a) (by decide) bytes c
  rw [hrows] at hrows₁
  obtain ⟨rfl, hlast⟩ := List.append_inj' hrows₁ rfl
  obtain rfl : last = last₁ := by simpa using hlast
  rw [hsnoc]
  by_cases hnewline : c = 0x0a
  · obtain ⟨s', hs', hshows⟩ := h.vgaLineDown
    refine ⟨s'.updateCursor, front ++ [last], [], ?_, ?_, hshows.row, hshows.column, hshows.fits, hshows.cells⟩
    · rw [Screen.vgaPutchar, Screen.vgaPutcharColored, if_pos hnewline, hs']
      rfl
    · rw [if_pos (beq_iff_eq.2 hnewline), List.append_assoc]
      rfl
  rw [if_neg (by simpa using hnewline), Screen.vgaPutchar,
    Screen.vgaPutcharColored_of_printed ⟨hnewline, hc⟩ h.bounded]
  have hcolor : colorWhite ||| colorBlack <<< 4 = colorWhite := by decide
  by_cases hfull : last.length = screenWidth
  · obtain ⟨t, ht, hshows⟩ := h.vgaLineDown
    obtain ⟨s', hs', hshows'⟩ := hshows.put (by decide) c
    refine ⟨_, front ++ [last], [c], ?_, ?_, hshows'⟩
    · rw [if_pos (h.column.trans hfull), ht]
      simp only [Option.bind_eq_bind, Option.bind_some, hcolor, hs']
    · rw [if_pos hfull, List.append_assoc]
      rfl
  · obtain ⟨s', hs', hshows'⟩ := h.put (lt_of_le_of_ne h.fits hfull) c
    refine ⟨_, front, last ++ [c], ?_, ?_, hshows'⟩
    · rw [if_neg (fun heq => hfull (h.column.symm.trans heq))]
      simp only [Option.bind_eq_bind, Option.bind_some, hcolor, hs']
    · rw [if_neg hfull]

private theorem putchars {s₀ : Screen} (h : Shows s₀ [] []) (bytes : List UInt8) (hbytes : 0x08 ∉ bytes) :
    ∃ s' front last, Vga.putchars s₀ bytes = some s' ∧
      Wrap.rows screenWidth (· == 0x0a) bytes = front ++ [last] ∧ Shows s' front last := by
  induction bytes using List.reverseRecOn with
  | nil => exact ⟨s₀, [], [], rfl, Wrap.rows_nil, h⟩
  | append_singleton bytes c ih =>
    obtain ⟨t, front, last, ht, hrows, hshows⟩ := ih (fun hmem => hbytes (List.mem_append_left _ hmem))
    have hc : c ≠ 0x08 := fun heq => hbytes (List.mem_append_right _ (List.mem_singleton.2 heq.symm))
    obtain ⟨s', front', last', hs', hrows', hshows'⟩ := hshows.vgaPutchar hrows hc
    refine ⟨s', front', last', ?_, hrows', hshows'⟩
    rw [Vga.putchars, List.foldlM_append, ← Vga.putchars, ht]
    simp only [Option.bind_eq_bind, Option.bind_some, List.foldlM_cons, hs', List.foldlM_nil]
    rfl

end Shows

/-- Some bytes leave the registers of the adapter at the cursor. -/
private theorem putchars_cursor {s s' : Screen} {bytes : List UInt8} (hs : s.Bounded) (hbytes : bytes ≠ [])
    (h : putchars s bytes = some s') :
    s'.cursorHigh * 256 + s'.cursorLow = s'.currRow * screenWidth + s'.currColumn := by
  obtain ⟨t, ht, hbounded⟩ := putchars_bounded hs bytes
  obtain rfl : t = s' := Option.some.inj (ht.symm.trans h)
  rw [← List.dropLast_append_getLast hbytes, putchars, List.foldlM_append] at h
  obtain ⟨u, -, hlast⟩ := Option.bind_eq_some_iff.1 h
  rw [List.foldlM_cons] at hlast
  obtain ⟨v, hv, hlast⟩ := Option.bind_eq_some_iff.1 hlast
  obtain rfl : v = t := Option.some.inj hlast
  obtain ⟨w, rfl⟩ := exists_updateCursor hv
  exact hbounded.cursor_eq

/-- The screen refines the text: whatever bytes come, the cursor stays on the screen and no cell outside it is stored
to, and without backspaces the screen shows the last 25 rows of the text with the cursor at the end of the last. -/
theorem putchars_refines (s : Screen) : ∃ s₀, s.vgaInit = some s₀ ∧
    (∀ bytes, ∃ s', putchars s₀ bytes = some s' ∧ s'.currRow ≤ 24 ∧ s'.currColumn ≤ 80) ∧
    ∀ bytes, 0x08 ∉ bytes → ∃ s' front last, putchars s₀ bytes = some s' ∧
      Wrap.rows 80 (· == 0x0a) bytes = front ++ [last] ∧
      (∀ r c, r < 25 → c < 80 → (s'.buffer (r * 80 + c)).asciiCode = shown (front ++ [last]) r c) ∧
      s'.currRow + 1 = min (front.length + 1) 25 ∧ s'.currColumn = last.length ∧
      (bytes ≠ [] → s'.cursorHigh * 256 + s'.cursorLow = s'.currRow * 80 + s'.currColumn) := by
  obtain ⟨s₀, hs₀, hshows⟩ := Shows.vgaInit s
  refine ⟨s₀, hs₀, ?_, ?_⟩
  · intro bytes
    obtain ⟨s', hs', hrow, hcolumn⟩ := putchars_bounded hshows.bounded bytes
    exact ⟨s', hs', Nat.le_of_lt_succ hrow, hcolumn⟩
  · intro bytes hbytes
    obtain ⟨s', front, last, hs', hrows, hshows'⟩ := hshows.putchars bytes hbytes
    refine ⟨s', front, last, hs', hrows, ?_, hshows'.row, hshows'.column, ?_⟩
    · intro r c hr hc
      rw [hshows'.cells r c hr hc]
    · intro hne
      exact putchars_cursor hshows.bounded hne hs'

theorem putchars_refines_blank : ∃ s₀ s' : Screen,
    Screen.vgaInit ⟨fun _ => emptyChar, 0, 0, 0, 0⟩ = some s₀ ∧ putchars s₀ [0x61, 0x0a, 0x62] = some s' ∧
      (s'.buffer 80).asciiCode = 0x62 ∧ s'.currRow = 1 ∧ s'.currColumn = 1 := by
  obtain ⟨s₀, hs₀, -, htext⟩ := putchars_refines ⟨fun _ => emptyChar, 0, 0, 0, 0⟩
  obtain ⟨s', front, last, hs', hrows, hcells, hrow, hcolumn, -⟩ := htext [0x61, 0x0a, 0x62] (by decide)
  have htwo : Wrap.rows 80 (· == 0x0a) ([0x61, 0x0a, 0x62] : List UInt8) = [[0x61]] ++ [[0x62]] := by
    simp [Wrap.rows, List.splitOnP_cons_eq_if_modifyHead, Wrap.wrap]
  rw [htwo] at hrows
  obtain ⟨rfl, hlast⟩ := List.append_inj' hrows rfl
  obtain rfl : [0x62] = last := by simpa using hlast
  refine ⟨s₀, s', hs₀, hs', ?_, by simpa using hrow, hcolumn⟩
  rw [show 80 = 1 * 80 + 0 from rfl, hcells 1 0 (by decide) (by decide)]
  decide

end DBolOS.Vga
