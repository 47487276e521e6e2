import DBolOS.Dev.Terminal
import DBolOS.Dev.Vga

/-!
# What is seen of a line that is edited

`keyboard_handler` stores a key into the line buffer and echoes it to the screen.  The echo is followed by the number
of its cell, counted row by row from the top of the screen, which a full row and the start of the next one share, and
from which scrolling takes 80 away.  `echo_shows_line` says that the screen shows the buffered line where the cursor
was, whatever was typed and erased in between.
-/

namespace DBolOS

namespace Vga

/-- The number of the cell that the cursor is at. -/
def Screen.position (s : Screen) : Nat := s.currRow * screenWidth + s.currColumn

/-! ### Blank cells -/

/-- Nothing is shown from the cursor on. -/
structure Screen.Blank (s : Screen) : Prop where
  bounded : s.Bounded
  cells : ∀ j, s.position ≤ j → j < screenHeight * screenWidth → s.buffer j = emptyChar

/-- `chars` were put at cell `p` of a screen with the cells `old`, and `d` rows were scrolled away since. -/
structure Screen.Holds (old : Nat → VgaChar) (p : Nat) (s : Screen) (chars : List VgaChar) (d : Nat) : Prop where
  bounded : s.Bounded
  window : screenWidth * d ≤ p
  position : s.position + screenWidth * d = p + chars.length
  cells : ∀ j < screenHeight * screenWidth, s.buffer j =
    if j + screenWidth * d < p then old (j + screenWidth * d)
    else (chars[j + screenWidth * d - p]?).getD emptyChar

variable {s s' : Screen} {old : Nat → VgaChar} {chars : List VgaChar} {p d : Nat}

namespace Screen

private theorem Blank.holds (h : s.Blank) : Holds s.buffer s.position s [] 0 := by
  refine ⟨h.bounded, Nat.zero_le _, rfl, fun j hj => ?_⟩
  rw [Nat.mul_zero, Nat.add_zero]
  split
  · rfl
  · rw [List.getElem?_nil, h.cells j (by omega) hj]
    rfl

/-- The start of the line is never scrolled away, since the buffer holds less than 24 rows. -/
private theorem Holds.lineDown (h : Holds old p s chars d) (hfull : s.currColumn = screenWidth)
    (hline : chars.length ≤ 1920) :
    ∃ t d', s.vgaLineDown = some t ∧ Holds old p t chars d' ∧ t.currColumn = 0 := by
  obtain ⟨⟨hrow, hcolumn⟩, hwindow, hposition, hcells⟩ := h
  simp only [Screen.position, screenWidth, screenHeight] at hrow hcolumn hfull hwindow hposition hcells
  rw [vgaLineDown]
  split
  · rename_i hlast
    simp only [screenHeight] at hlast
    rw [vgaScroll_eq]
    refine ⟨_, d + 1, rfl, ⟨⟨by simpa using hrow, Nat.zero_le _⟩, ?_, ?_, fun j hj => ?_⟩, rfl⟩
    · simp only [screenWidth]
      omega
    · simp only [Screen.position, screenWidth]
      omega
    · simp only [screenWidth, screenHeight] at hj ⊢
      have hshift : j + 80 * (d + 1) = j + 80 + 80 * d := by omega
      rw [hshift]
      split
      · exact hcells (j + 80) (by omega)
      · rw [if_neg (by omega), List.getElem?_eq_none (by omega)]
        rfl
  · rename_i hlast
    simp only [screenHeight] at hlast
    have hnext : (s.currRow + 1) % 2 ^ 16 = s.currRow + 1 := by omega
    refine ⟨_, d, rfl, ⟨⟨by simp only [hnext, screenHeight]; omega, Nat.zero_le _⟩, ?_, ?_, fun j hj => ?_⟩, rfl⟩
    · simpa only [Screen.position, screenWidth] using hwindow
    · simp only [Screen.position, screenWidth, hnext]
      omega
    · exact hcells j hj

/-- A character goes to the end of the line. -/
private theorem Holds.put (h : Holds old p s chars d) (hroom : s.currColumn < screenWidth) (ch : VgaChar) :
    ∃ s', s.put (s.currColumn + s.currRow * screenWidth) ch = some s' ∧
      Holds old p (updateCursor { s' with currColumn := (s'.currColumn + 1) % 2 ^ 16 }) (chars ++ [ch]) d := by
  obtain ⟨⟨hrow, hcolumn⟩, hwindow, hposition, hcells⟩ := h
  simp only [Screen.position, screenWidth, screenHeight] at hrow hcolumn hroom hwindow hposition hcells
  have hnext : (s.currColumn + 1) % 2 ^ 16 = s.currColumn + 1 := by omega
  refine ⟨_, put_eq _ (by simp only [screenHeight, screenWidth]; omega), ⟨hrow, ?_⟩, hwindow, ?_, fun j hj => ?_⟩
  · simp only [Screen.updateCursor, moveCursor, hnext, screenWidth]
    omega
  · simp only [Screen.updateCursor, moveCursor, Screen.position, hnext, screenWidth, List.length_append,
      List.length_singleton]
    omega
  · simp only [Screen.updateCursor, moveCursor, screenWidth, screenHeight] at hj ⊢
    rw [Function.update_apply]
    by_cases hcell : j = s.currColumn + s.currRow * 80
    · rw [if_pos hcell, if_neg (by omega), List.getElem?_append_right (by omega)]
      rw [show j + 80 * d - p - chars.length = 0 by omega]
      rfl
    · rw [if_neg hcell, hcells j hj]
      split
      · rfl
      · rw [List.getElem?_append]
        split
        · rfl
        · rename_i hbehind
          rw [List.getElem?_eq_none (by omega), List.getElem?_eq_none (by rw [List.length_singleton]; omega)]

private theorem Holds.vgaPutcharColored {c : UInt8} (h : Holds old p s chars d) (hc : Printed c)
    (hline : chars.length ≤ 1920)
    (bg chColor : UInt8) : ∃ s' d', s.vgaPutcharColored c bg chColor = some s' ∧
      Holds old p s' (chars ++ [⟨c, chColor ||| bg <<< 4⟩]) d' := by
  rw [vgaPutcharColored_of_printed hc h.bounded]
  by_cases hfull : s.currColumn = screenWidth
  · obtain ⟨t, d', ht, ht', hcolumn⟩ := h.lineDown hfull hline
    obtain ⟨s', hs', hs''⟩ := ht'.put (by rw [hcolumn]; decide) ⟨c, chColor ||| bg <<< 4⟩
    refine ⟨_, d', ?_, hs''⟩
    rw [if_pos hfull, ht]
    simp only [Option.bind_eq_bind, Option.bind_some, hs']
  · obtain ⟨s', hs', hs''⟩ := h.put (lt_of_le_of_ne h.bounded.column hfull) ⟨c, chColor ||| bg <<< 4⟩
    refine ⟨_, d, ?_, hs''⟩
    rw [if_neg hfull]
    simp only [Option.bind_eq_bind, Option.bind_some, hs']

/-- A backspace clears the cell in front of the cursor; at the top of the screen it clears the first. -/
private theorem exists_vgaDelChar (h : s.Bounded) : ∃ t : Screen, s.vgaDelChar =
      some (updateCursor { t with buffer := Function.update s.buffer t.position emptyChar }) ∧
    t.Bounded ∧ t.position = s.position - 1 := by
  obtain ⟨hrow, hcolumn⟩ := h
  simp only [screenWidth, screenHeight] at hrow hcolumn
  obtain ⟨t, ht, hbuffer, htrow, htcolumn, htposition⟩ : ∃ t : Screen,
      (if s.currColumn = 0 then
        if 0 < s.currRow then { s with currRow := s.currRow - 1, currColumn := screenWidth - 1 } else s
      else { s with currColumn := s.currColumn - 1 }) = t ∧ t.buffer = s.buffer ∧ t.currRow < 25 ∧ t.currColumn < 80 ∧
        t.currRow * 80 + t.currColumn = s.currRow * 80 + s.currColumn - 1 := by
    split
    · split
      · exact ⟨_, rfl, rfl, by simp only; omega, by simp only [screenWidth]; omega, by simp only [screenWidth]; omega⟩
      · exact ⟨_, rfl, rfl, hrow, by omega, by omega⟩
    · exact ⟨_, rfl, rfl, hrow, by simp only; omega, by simp only; omega⟩
  refine ⟨t, ?_, ⟨htrow, Nat.le_of_lt htcolumn⟩, htposition⟩
  simp only [Screen.vgaDelChar, ht, Option.bind_eq_bind]
  rw [put_eq _ (by simp only [screenHeight, screenWidth]; omega), hbuffer, Nat.add_comm]
  rfl

/-- A backspace takes the last character of the line. -/
private theorem Holds.vgaDelChar (h : Holds old p s chars d) (hne : chars ≠ []) :
    ∃ s', s.vgaDelChar = some s' ∧ Holds old p s' chars.dropLast d := by
  have hlength : 0 < chars.length := List.length_pos_iff.2 hne
  obtain ⟨hbounded, hwindow, hposition, hcells⟩ := h
  obtain ⟨t, ht, htbounded, htposition⟩ := exists_vgaDelChar hbounded
  have hlast : t.position + screenWidth * d = p + (chars.length - 1) := by omega
  refine ⟨_, ht, ⟨htbounded.row, htbounded.column⟩, hwindow, by rw [List.length_dropLast]; exact hlast, fun j hj => ?_⟩
  change Function.update s.buffer t.position emptyChar j = _
  rw [Function.update_apply, List.getElem?_dropLast]
  split
  · rw [if_neg (by omega), if_neg (by omega)]
    rfl
  · rw [hcells j hj]
    split
    · rfl
    · split
      · rfl
      · rw [List.getElem?_eq_none (by omega)]

private theorem Holds.blank (h : Holds old p s chars d) : s.Blank := by
  refine ⟨h.bounded, fun j hj hlt => ?_⟩
  have hposition := h.position
  rw [h.cells j hlt, if_neg (by omega), List.getElem?_eq_none (by omega)]
  rfl

private theorem Blank.vgaLineDown (h : s.Blank) : ∃ s', s.vgaLineDown = some s' ∧ s'.Blank := by
  obtain ⟨s', hs', hbounded, hcolumn⟩ := h.bounded.vgaLineDown
  refine ⟨s', hs', hbounded, fun j hj hlt => ?_⟩
  obtain ⟨⟨hrow, hcol⟩, hcells⟩ := h
  rw [Screen.vgaLineDown] at hs'
  simp only [Screen.position, screenWidth, screenHeight] at hrow hcol hcells hj hlt hs'
  split at hs'
  · rename_i hlast
    rw [vgaScroll_eq] at hs'
    cases hs'
    simp only [screenWidth, screenHeight] at hlast hj ⊢
    rw [if_neg (by omega), if_pos hlt]
  · rename_i hlast
    cases hs'
    have hnext : (s.currRow + 1) % 2 ^ 16 = s.currRow + 1 := by omega
    simp only [hnext] at hlast hj ⊢
    exact hcells j (by omega) hlt

private theorem Blank.vgaDelChar (h : s.Blank) : ∃ s', s.vgaDelChar = some s' ∧ s'.Blank := by
  obtain ⟨t, ht, htbounded, htposition⟩ := exists_vgaDelChar h.bounded
  refine ⟨_, ht, ⟨htbounded.row, htbounded.column⟩, fun j hj hlt => ?_⟩
  change Function.update s.buffer t.position emptyChar j = _
  have hle : t.position ≤ j := hj
  rw [Function.update_apply]
  split
  · rfl
  · exact h.cells j (by omega) hlt

/-- Whatever is put on the screen, nothing is shown from the cursor on. -/
private theorem Blank.vgaPutcharColored (h : s.Blank) (c bg chColor : UInt8) :
    ∃ s', s.vgaPutcharColored c bg chColor = some s' ∧ s'.Blank := by
  by_cases hnewline : c = 0x0a
  · obtain ⟨t, ht, hblank⟩ := h.vgaLineDown
    refine ⟨t.updateCursor, ?_, hblank.bounded.updateCursor, hblank.cells⟩
    rw [Screen.vgaPutcharColored, if_pos hnewline, ht]
    rfl
  by_cases hbackspace : c = 0x08
  · rw [Screen.vgaPutcharColored, if_neg hnewline, if_pos hbackspace]
    exact h.vgaDelChar
  obtain ⟨s', d', hs', hholds⟩ := h.holds.vgaPutcharColored ⟨hnewline, hbackspace⟩ (Nat.zero_le _) bg chColor
  exact ⟨s', hs', hholds.blank⟩

private theorem vgaInit_blank (s : Screen) : ∃ s', s.vgaInit = some s' ∧ s'.Blank := by
  refine ⟨_, vgaInit_eq s, ⟨Nat.zero_lt_succ _, Nat.zero_le _⟩, fun j _ hj => ?_⟩
  exact if_pos hj

private theorem Blank.foldlM (h : s.Blank) (output : List (UInt8 × UInt8 × UInt8)) :
    ∃ s', output.foldlM (fun s ch => s.vgaPutcharColored ch.1 ch.2.1 ch.2.2) s = some s' ∧ s'.Blank := by
  induction output generalizing s with
  | nil => exact ⟨s, rfl, h⟩
  | cons ch output ih =>
    obtain ⟨t, ht, htblank⟩ := h.vgaPutcharColored ch.1 ch.2.1 ch.2.2
    obtain ⟨s', hs', hblank⟩ := ih htblank
    exact ⟨s', by rw [List.foldlM_cons, ht]; exact hs', hblank⟩

end Screen

end Vga

/-! ### The handler with its echo -/

open Keyboard Vga

/-- The cell of an echoed character. -/
def echoed (char : UInt8) : VgaChar := ⟨char, colorWhite⟩

namespace Console

/-- What `keyboard_handler` sends to `vga_putchar`. -/
def echo (c : Console) (scanCode : UInt8) : List UInt8 :=
  if released scanCode then []
  else if (c.keyboard.press scanCode).isSome then []
  else if keyMap scanCode = backspace then if 0 < c.inputLen then [backspace] else []
  else [c.keyboard.character scanCode]

/-- A key with its echo. -/
def typeKey (t : Console × Screen) (scanCode : UInt8) : Option (Console × Screen) := do
  let c ← t.1.keyboardHandler scanCode
  let s ← putchars t.2 (t.1.echo scanCode)
  some (c, s)

/-- A key that ends the line. -/
def isEnter (scanCode : UInt8) : Bool := !released scanCode && keyMap scanCode == newline

variable {old : Nat → VgaChar} {p d : Nat} {c c' : Console} {s : Screen}

/-- A key that does not end the line keeps the screen at what is buffered. -/
private theorem typeKey_holds {scanCode : UInt8} (h : s.Holds old p (c.buffered.map echoed) d)
    (hlen : c.inputLen ≤ INPUT_BUFFER_SIZE) (henter : isEnter scanCode = false)
    (hkey : c.keyboardHandler scanCode = some c') :
    ∃ s' d', typeKey (c, s) scanCode = some (c', s') ∧ Screen.Holds old p s' (c'.buffered.map echoed) d' ∧
      c'.inputLen ≤ INPUT_BUFFER_SIZE := by
  have hlength := buffered_length hlen
  simp only [typeKey, hkey, Option.bind_eq_bind, Option.bind_some]
  rcases keyboardHandler_cases hkey with
    ⟨hmodifier, keyboard, rfl⟩ | ⟨hreleased, hpress, ⟨hback, rfl⟩ | ⟨hback, c₁, hstore, hcase⟩⟩
  · have hecho : c.echo scanCode = [] := by
      rcases hmodifier with hmodifier | hmodifier <;> simp [echo, hmodifier]
    rw [hecho]
    exact ⟨s, d, rfl, h, hlen⟩
  · -- backspace
    obtain ⟨hbuffered, hlen', -⟩ := buffered_erase hlen
    rw [hbuffered, List.map_dropLast]
    by_cases hpos : 0 < c.inputLen
    · have hecho : c.echo scanCode = [backspace] := by simp [echo, hreleased, hpress, hback, hpos]
      obtain ⟨s', hs', hholds⟩ := h.vgaDelChar (List.ne_nil_of_length_pos (by rw [List.length_map]; omega))
      have hput : putchars s [backspace] = some s' := by
        simp [putchars, Screen.vgaPutchar, Screen.vgaPutcharColored, backspace, hs']
      rw [hecho, hput]
      exact ⟨s', d, rfl, hholds, by omega⟩
    · have hecho : c.echo scanCode = [] := by simp [echo, hreleased, hpress, hback, hpos]
      have hnil : c.buffered = [] := List.eq_nil_of_length_eq_zero (by omega)
      rw [hnil] at h ⊢
      rw [hecho]
      exact ⟨s, d, rfl, h, by omega⟩
  · -- a character
    have hnewline : keyMap scanCode ≠ newline := by
      rintro heq
      simp [isEnter, hreleased, heq] at henter
    obtain rfl : c' = c₁ := hcase.elim And.right fun h => absurd h.1 hnewline
    obtain ⟨hbuffered, hlen', hlt, -⟩ := buffered_store hstore
    have hecho : c.echo scanCode = [c.keyboard.character scanCode] := by simp [echo, hreleased, hpress, hback]
    have hprinted : Screen.Printed (c.keyboard.character scanCode) :=
      ⟨fun heq => hnewline (character_eq_newline_iff.1 heq), fun heq => hback (character_eq_backspace_iff.1 heq)⟩
    have hshort : (c.buffered.map echoed).length ≤ 1920 := by
      rw [List.length_map, hlength]
      simp only [INPUT_BUFFER_SIZE] at hlt
      omega
    obtain ⟨s', d', hs', hholds⟩ := h.vgaPutcharColored hprinted hshort colorBlack colorWhite
    have hput : putchars s [c.keyboard.character scanCode] = some s' := by
      simp [putchars, Screen.vgaPutchar, hs']
    rw [hecho, hput, hbuffered, List.map_append]
    exact ⟨s', d', rfl, hholds, by omega⟩

private theorem foldlM_typeKey_holds {keys : List UInt8} (h : s.Holds old p (c.buffered.map echoed) d)
    (hlen : c.inputLen ≤ INPUT_BUFFER_SIZE) (henter : ∀ scanCode ∈ keys, isEnter scanCode = false)
    (hrun : keys.foldlM keyboardHandler c = some c') :
    ∃ s' d', keys.foldlM typeKey (c, s) = some (c', s') ∧ Screen.Holds old p s' (c'.buffered.map echoed) d' := by
  induction keys generalizing c s d with
  | nil =>
    cases hrun
    exact ⟨s, d, rfl, h⟩
  | cons scanCode keys ih =>
    rw [List.foldlM_cons] at hrun
    obtain ⟨c₁, hkey, hrun⟩ := Option.bind_eq_some_iff.1 hrun
    obtain ⟨s₁, d₁, hs₁, hholds, hlen₁⟩ :=
      typeKey_holds h hlen (henter scanCode List.mem_cons_self) hkey
    obtain ⟨s', d', hs', hholds'⟩ := ih hholds hlen₁ (fun k hk => henter k (List.mem_cons_of_mem _ hk)) hrun
    exact ⟨s', d', by rw [List.foldlM_cons, hs₁]; exact hs', hholds'⟩

/-- What is seen is what a read will get: after any output in any colours, an empty line buffer and any keys but Enter,
the screen shows the buffered line from where the cursor was, with nothing behind it and with the output that did not
scroll away in front of it.  A full line buffer ends `hrun`. -/
theorem echo_shows_line (s₀ : Screen) (output : List (UInt8 × UInt8 × UInt8)) {keys : List UInt8}
    (hempty : c.inputLen = 0) (henter : ∀ scanCode ∈ keys, isEnter scanCode = false)
    (hrun : keys.foldlM keyboardHandler c = some c') :
    ∃ s s', (do output.foldlM (fun s ch => s.vgaPutcharColored ch.1 ch.2.1 ch.2.2) (← s₀.vgaInit)) = some s ∧
      keys.foldlM typeKey (c, s) = some (c', s') ∧
      ∃ d, Screen.Holds s.buffer s.position s' (c'.buffered.map echoed) d := by
  obtain ⟨t, ht, htblank⟩ := Screen.vgaInit_blank s₀
  obtain ⟨s, hs, hblank⟩ := htblank.foldlM output
  have hnil : c.buffered.map echoed = [] := by
    unfold buffered
    rw [hempty, List.take_zero, List.map_nil]
  have hlen : c.inputLen ≤ INPUT_BUFFER_SIZE := by omega
  obtain ⟨s', d', hs', hholds⟩ := foldlM_typeKey_holds (by rw [hnil]; exact hblank.holds) hlen henter hrun
  exact ⟨s, s', by rw [ht]; exact hs, hs', d', hholds⟩

/-- `a`, `b`, backspace and a released key behind the prompt `#`. -/
theorem echo_shows_line_a : ∃ (c : Console) (s s' : Screen),
    [0x1e, 0x30, 0x0e, 0x8e].foldlM typeKey (boot, s) = some (c, s') ∧ c.buffered = [97] ∧
      ∃ d, Screen.Holds s.buffer s.position s' [⟨97, colorWhite⟩] d := by
  have hrun : ([0x1e, 0x30, 0x0e, 0x8e].foldlM keyboardHandler boot).map buffered = some [97] := by decide +kernel
  obtain ⟨c, hc, hbuffered⟩ := Option.map_eq_some_iff.1 hrun
  obtain ⟨s, s', -, hs', d, hholds⟩ := echo_shows_line ⟨fun _ => emptyChar, 0, 0, 0, 0⟩ [(0x23, colorBlack, 0x02)]
    rfl (by decide +kernel) hc
  rw [hbuffered] at hholds
  exact ⟨c, s, s', hs', hbuffered, d, hholds⟩

end Console

end DBolOS
