import DBolOS.Dev.Keyboard
import DBolOS.Proc.Runs

/-!
# Reading lines from the terminal

The line buffer of the active terminal between `keyboard_handler`, which fills it, and `read_terminal_input`, which
copies from it and then clears all of it.  `lineDiscipline` says that what the reads deliver is a prefix of the edited
input as long as

* no key without a character is pressed (its `0` is stored) and the buffer is not full;
* backspace meets an empty buffer exactly when the current line is empty.  An Enter that was not read yet can
  otherwise be erased, and a read can take the unfinished line away from the editor;
* every read that returns asks for at least what is buffered.
-/

namespace DBolOS

open Keyboard Proc Proc.Manager

/-- The process manager with the keyboard and the input of the active terminal.  `count` is the argument of the read
that the process at a node is in. -/
structure Console where
  manager : Manager
  inputBuf : Vector UInt8 INPUT_BUFFER_SIZE
  inputLen : Nat
  keyboard : KeyboardState
  count : Nat → UInt32

namespace Console

/-! ### The handlers -/

def erase (c : Console) : Console :=
  if 0 < c.inputLen then
    { c with inputBuf := c.inputBuf.setIfInBounds (c.inputLen - 1) 0, inputLen := c.inputLen - 1 }
  else c

/-- `none` is a store beyond the end of `input_buf`. -/
def store (c : Console) (char : UInt8) : Option Console :=
  if h : c.inputLen < INPUT_BUFFER_SIZE then
    some { c with inputBuf := c.inputBuf.set c.inputLen char h, inputLen := c.inputLen + 1 }
  else none

def keyboardHandler (c : Console) (scanCode : UInt8) : Option Console :=
  if released scanCode then some { c with keyboard := c.keyboard.release scanCode }
  else
    match c.keyboard.press scanCode with
    | some keyboard => some { c with keyboard }
    | none =>
      if c.manager.activeTerminal.isNone then none
      else if keyMap scanCode = backspace then some c.erase
      else do
        let c ← c.store (c.keyboard.character scanCode)
        if keyMap scanCode = newline then do
          let m ← c.manager.setInputReady true
          let m ← m.wakeUpTerminalProcesses m.activeTerminalId
          some { c with manager := m }
        else some c

/-- The count of the read that returns at the next test of its loop. -/
def returning (c : Console) : Option UInt32 := do
  let (p, inTerminalRead) ← c.manager.reading
  let t ← c.manager.activeTerminal
  if inTerminalRead ∧ t.isInputReady then some (c.count p) else none

/-- `read_terminal_input` behind its loop. -/
def takeInput (c : Console) (count : UInt32) : Console × List UInt8 :=
  let copyLen := if c.inputLen < count.toNat then c.inputLen else count.toNat
  ({ c with inputBuf := Vector.replicate INPUT_BUFFER_SIZE 0, inputLen := 0 }, c.inputBuf.toList.take copyLen)

/-! ### Entries to the kernel -/

inductive Input
  | key (scanCode : UInt8)
  /-- The current process enters `read_terminal_input`. -/
  | read (count : UInt32)
  /-- One test of the loop of `read_terminal_input`. -/
  | poll
  /-- Any other entry. -/
  | other (e : Event)

/-- The entries that have an `Input` of their own. -/
def readsOrTypes : Event → Bool
  | .newline | .read | .poll => true
  | _ => false

/-- One entry, with the bytes that a returning read delivers. -/
def step (c : Console) : Input → Option (Console × Option (List UInt8))
  | .key scanCode => if c.manager.interruptsEnabled then (·, none) <$> c.keyboardHandler scanCode else none
  | .read count => do
    let (p, _) ← c.manager.reading
    let m ← c.manager.exec .read
    some ({ c with manager := m, count := Function.update c.count p count }, none)
  | .poll => do
    let m ← c.manager.exec .poll
    match c.returning with
    | some count =>
      let (c, bytes) := { c with manager := m }.takeInput count
      some (c, some bytes)
    | none => some ({ c with manager := m }, none)
  | .other e =>
    if readsOrTypes e then none
    else do
      let m ← c.manager.exec e
      some ({ c with manager := m }, none)

def boot : Console where
  manager := .boot
  inputBuf := Vector.replicate INPUT_BUFFER_SIZE 0
  inputLen := 0
  keyboard := .zero
  count := fun _ => 0

/-- What is in the line buffer. -/
def buffered (c : Console) : List UInt8 := c.inputBuf.toList.take c.inputLen

end Console

/-! ### The edited input -/

/-- The lines ended so far, and the line that is being edited. -/
structure Editor where
  committed : List UInt8
  line : List UInt8

namespace Editor

def text (e : Editor) : List UInt8 := e.committed ++ e.line

/-- Backspace erases in the current line only, and Enter ends it. -/
def type (e : Editor) (char : UInt8) : Editor :=
  if char = backspace then { e with line := e.line.dropLast }
  else if char = newline then { committed := e.committed ++ e.line ++ [newline], line := [] }
  else { e with line := e.line ++ [char] }

def empty : Editor := ⟨[], []⟩

/-- The current line has no end and every committed one has. -/
structure WellFormed (e : Editor) : Prop where
  line : newline ∉ e.line
  committed : e.committed = [] ∨ ∃ l, e.committed = l ++ [newline]

private theorem WellFormed.type {e : Editor} (h : e.WellFormed) (char : UInt8) : (e.type char).WellFormed := by
  unfold Editor.type
  split
  · exact ⟨fun hmem => h.line (List.mem_of_mem_dropLast hmem), h.committed⟩
  · split
    · exact ⟨by simp, .inr ⟨_, rfl⟩⟩
    · rename_i hne
      refine ⟨?_, h.committed⟩
      rw [List.mem_append, List.mem_singleton]
      rintro (hmem | heq)
      · exact h.line hmem
      · exact hne heq.symm

private theorem text_type_char {e : Editor} {char : UInt8} (hb : char ≠ backspace) :
    (e.type char).text = e.text ++ [char] := by
  unfold Editor.type text
  rw [if_neg hb]
  split
  · rename_i heq
    simp [heq]
  · simp

private theorem text_type_backspace {e : Editor} (hline : e.line ≠ []) : (e.type backspace).text = e.text.dropLast := by
  unfold Editor.type text
  rw [if_pos rfl, List.dropLast_append_of_ne_nil hline]

private theorem type_backspace_nil {e : Editor} (hline : e.line = []) : e.type backspace = e := by
  unfold Editor.type
  rw [if_pos rfl, hline, List.dropLast_nil, ← hline]

/-- Where the newline of a complete line is held back, it is that of the last committed line. -/
private theorem WellFormed.complete {e : Editor} (h : e.WellFormed) {delivered held : List UInt8}
    (htext : delivered ++ held = e.text) (hmem : newline ∈ held) :
    ∃ l, e.committed = delivered ++ l ++ [newline] := by
  rcases List.append_eq_append_iff.1 htext with ⟨l, hcommitted, hheld⟩ | ⟨l, -, hline⟩
  · rw [hheld, List.mem_append] at hmem
    have hl : newline ∈ l := hmem.resolve_right h.line
    obtain ⟨init, last, rfl⟩ : ∃ init last, l = init ++ [last] :=
      ⟨l.dropLast, l.getLast (List.ne_nil_of_mem hl), (List.dropLast_append_getLast _).symm⟩
    rcases h.committed with hnil | ⟨l', heq⟩
    · simp [hcommitted] at hnil
    · rw [hcommitted, ← List.append_assoc] at heq
      obtain ⟨-, hlast⟩ := List.append_inj' heq rfl
      exact ⟨init, by rw [hcommitted, hlast, List.append_assoc]⟩
  · exact absurd (hline ▸ List.mem_append_right l hmem) h.line

end Editor

/-! ### Sessions -/

/-- The machine beside what the user has typed and what the reads have returned. -/
structure Session where
  console : Console
  editor : Editor
  delivered : List UInt8

namespace Session

open Console (Input)

def boot : Session := ⟨.boot, .empty, []⟩

def step (s : Session) (i : Input) : Option Session := do
  let (console, bytes) ← s.console.step i
  let editor :=
    match i with
    | .key scanCode => ((s.console.keyboard.typed scanCode).map s.editor.type).getD s.editor
    | _ => s.editor
  some { console, editor, delivered := s.delivered ++ bytes.getD [] }

/-- The entries that the line buffer is up to. -/
def Allowed (s : Session) : Input → Prop
  | .key scanCode =>
    released scanCode = false → s.console.keyboard.press scanCode = none →
      if keyMap scanCode = backspace then (s.console.inputLen = 0 ↔ s.editor.line = [])
      else s.console.keyboard.character scanCode ≠ 0 ∧ s.console.inputLen < INPUT_BUFFER_SIZE
  | .poll => s.console.returning.all fun count => s.console.inputLen ≤ count.toNat
  | _ => True

instance (s : Session) : (i : Input) → Decidable (s.Allowed i)
  | .key scanCode =>
    inferInstanceAs (Decidable (released scanCode = false → s.console.keyboard.press scanCode = none →
      if keyMap scanCode = backspace then (s.console.inputLen = 0 ↔ s.editor.line = [])
      else s.console.keyboard.character scanCode ≠ 0 ∧ s.console.inputLen < INPUT_BUFFER_SIZE))
  | .poll => inferInstanceAs (Decidable (s.console.returning.all _ = true))
  | .read _ => .isTrue trivial
  | .other _ => .isTrue trivial

/-- What keeps the discipline: the edited input is what was delivered and what is buffered, and a line is ready only
when a whole one is buffered. -/
structure Held (s : Session) : Prop where
  text : s.delivered ++ s.console.buffered = s.editor.text
  editor : s.editor.WellFormed
  length : s.console.inputLen ≤ INPUT_BUFFER_SIZE
  ready : ∃ ring, Abs s.console.manager ring ∧ (ring.inputReady = true → newline ∈ s.console.buffered)

end Session

/-! ### What the handlers do to the buffer -/

namespace Console

variable {c c' : Console}

theorem buffered_store {char : UInt8} (h : c.store char = some c') :
    c'.buffered = c.buffered ++ [char] ∧ c'.inputLen = c.inputLen + 1 ∧ c.inputLen < INPUT_BUFFER_SIZE ∧
      c'.manager = c.manager := by
  unfold store at h
  split at h
  · rename_i hlt
    cases h
    refine ⟨?_, rfl, hlt, rfl⟩
    unfold buffered
    rw [Vector.toList_set, List.take_add_one, List.take_set_of_le (Nat.le_refl _), List.getElem?_set_self]
    · rfl
    · simpa using hlt
  · cases h

theorem buffered_erase (hlen : c.inputLen ≤ INPUT_BUFFER_SIZE) :
    c.erase.buffered = c.buffered.dropLast ∧ c.erase.inputLen = c.inputLen - 1 ∧ c.erase.manager = c.manager := by
  unfold erase
  split
  · rename_i hpos
    refine ⟨?_, rfl, rfl⟩
    unfold buffered
    have hmin : min c.inputLen c.inputBuf.toList.length = c.inputLen := by simpa using hlen
    rw [List.dropLast_eq_take, List.take_take, List.length_take, hmin, Nat.min_eq_left (Nat.sub_le _ _),
      Vector.toList_setIfInBounds, List.take_set_of_le (Nat.le_refl _)]
  · rename_i hzero
    have hnil : c.buffered = [] := by
      unfold buffered
      rw [show c.inputLen = 0 by omega, List.take_zero]
    exact ⟨by rw [hnil, List.dropLast_nil], by omega, rfl⟩

theorem buffered_length (hlen : c.inputLen ≤ INPUT_BUFFER_SIZE) : c.buffered.length = c.inputLen := by
  unfold buffered
  rw [List.length_take, Vector.length_toList]
  exact Nat.min_eq_left hlen

/-- What a key does: it changes a modifier, erases, or stores a character and, for Enter, marks the line ready. -/
theorem keyboardHandler_cases {scanCode : UInt8} (h : c.keyboardHandler scanCode = some c') :
    ((released scanCode = true ∨ (c.keyboard.press scanCode).isSome = true) ∧ ∃ keyboard, c' = { c with keyboard }) ∨
    (released scanCode = false ∧ c.keyboard.press scanCode = none ∧
      (keyMap scanCode = backspace ∧ c' = c.erase ∨
        keyMap scanCode ≠ backspace ∧ ∃ c₁, c.store (c.keyboard.character scanCode) = some c₁ ∧
          (keyMap scanCode ≠ newline ∧ c' = c₁ ∨
            keyMap scanCode = newline ∧ ∃ m₁ m₂, c₁.manager.setInputReady true = some m₁ ∧
              m₁.wakeUpTerminalProcesses m₁.activeTerminalId = some m₂ ∧ c' = { c₁ with manager := m₂ }))) := by
  unfold keyboardHandler at h
  split at h
  · rename_i hreleased
    cases h
    exact .inl ⟨.inl hreleased, _, rfl⟩
  · rename_i hreleased
    split at h
    · rename_i keyboard hpress
      cases h
      exact .inl ⟨.inr (by simp [hpress]), _, rfl⟩
    · rename_i hpress
      refine .inr ⟨by simpa using hreleased, hpress, ?_⟩
      split at h
      · cases h
      · split at h
        · rename_i hback
          cases h
          exact .inl ⟨hback, rfl⟩
        · rename_i hback
          obtain ⟨c₁, hstore, h⟩ := Option.bind_eq_some_iff.1 h
          refine .inr ⟨hback, c₁, hstore, ?_⟩
          split at h
          · rename_i hnewline
            obtain ⟨m₁, hm₁, h⟩ := Option.bind_eq_some_iff.1 h
            obtain ⟨m₂, hm₂, h⟩ := Option.bind_eq_some_iff.1 h
            cases h
            exact .inr ⟨hnewline, m₁, m₂, hm₁, hm₂, rfl⟩
          · rename_i hnewline
            cases h
            exact .inl ⟨hnewline, rfl⟩

end Console

/-! ### What a step keeps -/

/-- Only Enter and a returning read change whether a line is ready. -/
theorem Proc.Sched.Step.inputReady_eq {ring ring' : Sched} {e : Event} {o : Outcome} (h : ring.Step e o ring')
    (hne : e ≠ .newline) (hnp : e ≠ .poll) : ring'.inputReady = ring.inputReady := by
  cases h with
  | create => rfl
  | createFailed => rfl
  | enableProcesses => rfl
  | idle => rfl
  | tick _ hswitch => exact hswitch.inputReady
  | newline => exact absurd rfl hne
  | read => rfl
  | pollReady => exact absurd rfl hnp
  | pollWait => exact absurd rfl hnp
  | execve _ _ hswitch => exact hswitch.inputReady
  | execveFailed _ hswitch => exact hswitch.inputReady
  | exit => rfl

namespace Session

open Console (Input)

variable {s s' : Session}

/-- A key of the modifiers, or a released key, leaves everything but the modifiers as it was. -/
private theorem typed_eq_none {k : KeyboardState} {scanCode : UInt8}
    (h : released scanCode = true ∨ (k.press scanCode).isSome = true) : k.typed scanCode = none := by
  unfold KeyboardState.typed
  rcases h with hreleased | hpress
  · rw [if_pos hreleased]
  · rw [if_pos hpress, ite_self]

private theorem typed_eq_backspace {k : KeyboardState} {scanCode : UInt8} (hreleased : released scanCode = false)
    (hpress : k.press scanCode = none) (hback : keyMap scanCode = backspace) :
    k.typed scanCode = some backspace := by
  simp [KeyboardState.typed, hreleased, hpress, hback]

private theorem typed_eq_character {k : KeyboardState} {scanCode : UInt8} (hreleased : released scanCode = false)
    (hpress : k.press scanCode = none) (hback : keyMap scanCode ≠ backspace) (hzero : k.character scanCode ≠ 0) :
    k.typed scanCode = some (k.character scanCode) := by
  simp [KeyboardState.typed, hreleased, hpress, hback, hzero]

private theorem Held.key (h : s.Held) {scanCode : UInt8} (hallowed : s.Allowed (.key scanCode)) {c : Console}
    (hkey : s.console.keyboardHandler scanCode = some c) :
    Held ⟨c, ((s.console.keyboard.typed scanCode).map s.editor.type).getD s.editor, s.delivered⟩ := by
  obtain ⟨ring, habs, hready⟩ := h.ready
  rcases Console.keyboardHandler_cases hkey with
    ⟨hmodifier, keyboard, rfl⟩ | ⟨hreleased, hpress, ⟨hback, rfl⟩ | ⟨hback, c₁, hstore, hcase⟩⟩
  · rw [typed_eq_none hmodifier]
    exact ⟨h.text, h.editor, h.length, ring, habs, hready⟩
  · -- backspace
    have hallowed : s.console.inputLen = 0 ↔ s.editor.line = [] := by
      have := hallowed hreleased hpress
      rwa [if_pos hback] at this
    obtain ⟨hbuffered, hlen, hmanager⟩ := Console.buffered_erase h.length
    rw [typed_eq_backspace hreleased hpress hback]
    have hlength := Console.buffered_length h.length
    refine ⟨?_, h.editor.type backspace, by rw [hlen]; have := h.length; omega, ring, by rwa [hmanager], ?_⟩
    · show s.delivered ++ s.console.erase.buffered = (s.editor.type backspace).text
      rw [hbuffered]
      by_cases hline : s.editor.line = []
      · have hnil : s.console.buffered = [] := List.eq_nil_of_length_eq_zero (hlength.trans (hallowed.2 hline))
        rw [Editor.type_backspace_nil hline, ← h.text, hnil, List.dropLast_nil]
      · have hne : s.console.buffered ≠ [] := by
          intro hnil
          rw [hnil, List.length_nil] at hlength
          exact hline (hallowed.1 hlength.symm)
        rw [Editor.text_type_backspace hline, ← h.text, List.dropLast_append_of_ne_nil hne]
    · -- the erased character is of the current line
      intro hinput
      have hmem := hready hinput
      rw [hbuffered]
      have hline : s.editor.line ≠ [] := by
        intro hline
        rw [List.eq_nil_of_length_eq_zero (hlength.trans (hallowed.2 hline))] at hmem
        cases hmem
      obtain ⟨init, last, hbuf⟩ : ∃ init last, s.console.buffered = init ++ [last] :=
        ⟨_, _, (List.dropLast_append_getLast (List.ne_nil_of_mem hmem)).symm⟩
      obtain ⟨init', last', hline'⟩ : ∃ init' last', s.editor.line = init' ++ [last'] :=
        ⟨_, _, (List.dropLast_append_getLast hline).symm⟩
      have htext := h.text
      rw [Editor.text, hbuf, hline', ← List.append_assoc, ← List.append_assoc] at htext
      obtain ⟨-, hlast⟩ := List.append_inj' htext rfl
      have hne : last ≠ newline := by
        intro heq
        apply h.editor.line
        rw [hline', ← List.singleton_inj.1 hlast, heq]
        simp
      rw [hbuf, List.mem_append, List.mem_singleton] at hmem
      rw [hbuf, List.dropLast_concat]
      exact hmem.resolve_right (Ne.symm hne)
  · -- a character
    obtain ⟨hzero, hfull⟩ : s.console.keyboard.character scanCode ≠ 0 ∧ s.console.inputLen < INPUT_BUFFER_SIZE := by
      have := hallowed hreleased hpress
      rwa [if_neg hback] at this
    obtain ⟨hbuffered, hlen, -, hmanager⟩ := Console.buffered_store hstore
    rw [typed_eq_character hreleased hpress hback hzero]
    have hchar : s.console.keyboard.character scanCode ≠ backspace := mt character_eq_backspace_iff.1 hback
    have htext : s.delivered ++ c₁.buffered = (s.editor.type (s.console.keyboard.character scanCode)).text := by
      rw [Editor.text_type_char hchar, ← h.text, hbuffered, List.append_assoc]
    have hlength : c₁.inputLen ≤ INPUT_BUFFER_SIZE := by omega
    rcases hcase with ⟨-, rfl⟩ | ⟨hnewline, m₁, m₂, hm₁, hm₂, rfl⟩
    · refine ⟨htext, h.editor.type _, hlength, ring, by rwa [hmanager], ?_⟩
      intro hinput
      rw [hbuffered]
      exact List.mem_append_left _ (hready hinput)
    · rw [hmanager] at hm₁
      obtain ⟨-, -, -, habs'⟩ := (habs.setInputReady_spec hm₁).wakeUp_eq hm₂
      refine ⟨htext, h.editor.type _, hlength, _, habs', ?_⟩
      intro _
      show newline ∈ c₁.buffered
      rw [hbuffered, character_eq_newline_iff.2 hnewline]
      simp

theorem returning_eq {c : Console} {ring : Sched} {p : Nat} (habs : Abs c.manager ring)
    (hruns : ring.Runs p true) : c.returning = if ring.inputReady = true then some (c.count p) else none := by
  obtain ⟨t, ht, -, hinput⟩ := habs.terminal
  unfold Console.returning
  rw [habs.reading_of_runs hruns, ht]
  simp [hinput]

/-- One test of the loop: a read that returns delivers the whole buffer. -/
private theorem Held.poll (h : s.Held) (hallowed : s.Allowed .poll) {c : Console} {bytes : Option (List UInt8)}
    (hpoll : s.console.step .poll = some (c, bytes)) : Held ⟨c, s.editor, s.delivered ++ bytes.getD []⟩ := by
  obtain ⟨ring, habs, hready⟩ := h.ready
  obtain ⟨m, hexec, hpoll⟩ := Option.bind_eq_some_iff.1 hpoll
  obtain ⟨o, hstep⟩ := exec_eq hexec
  obtain ⟨ring', hstep', habs'⟩ := habs.step hstep
  cases hstep' with
  | @pollReady p hruns hinput =>
    have hreturns := returning_eq habs hruns
    rw [if_pos hinput] at hreturns
    have hcount : s.console.inputLen ≤ (s.console.count p).toNat := by
      unfold Allowed at hallowed
      simpa [hreturns] using hallowed
    simp only [hreturns, Option.some.injEq, Prod.mk.injEq] at hpoll
    obtain ⟨rfl, rfl⟩ := hpoll
    refine ⟨?_, h.editor, Nat.zero_le _, _, habs', fun hfalse => by cases hfalse⟩
    have hcopy : (if s.console.inputLen < (s.console.count p).toNat then s.console.inputLen
        else (s.console.count p).toNat) = s.console.inputLen := by
      split <;> omega
    show s.delivered ++ s.console.inputBuf.toList.take _ ++ [] = _
    rw [List.append_nil, hcopy]
    exact h.text
  | pollWait hruns hinput hswitch =>
    have hreturns := returning_eq habs hruns
    rw [hinput] at hreturns
    simp only [hreturns, Bool.false_eq_true, if_false, Option.some.injEq, Prod.mk.injEq] at hpoll
    obtain ⟨rfl, rfl⟩ := hpoll
    refine ⟨by rw [Option.getD_none, List.append_nil]; exact h.text, h.editor, h.length, _, habs', ?_⟩
    rw [hswitch.inputReady]
    exact hready

/-- An entry that neither types nor returns from a read. -/
private theorem Held.exec (h : s.Held) {e : Event} {m : Manager} (hexec : s.console.manager.exec e = some m)
    (hne : e ≠ .newline) (hnp : e ≠ .poll) (count : Nat → UInt32) :
    Held ⟨{ s.console with manager := m, count := count }, s.editor, s.delivered⟩ := by
  obtain ⟨ring, habs, hready⟩ := h.ready
  obtain ⟨o, hstep⟩ := exec_eq hexec
  obtain ⟨ring', hstep', habs'⟩ := habs.step hstep
  refine ⟨h.text, h.editor, h.length, ring', habs', ?_⟩
  rw [hstep'.inputReady_eq hne hnp]
  exact hready

private theorem Held.step {i : Input} (h : s.Held) (hallowed : s.Allowed i) (hstep : s.step i = some s') : s'.Held := by
  obtain ⟨⟨c, bytes⟩, hconsole, heq⟩ := Option.bind_eq_some_iff.1 hstep
  cases heq
  cases i with
  | key scanCode =>
    simp only [Console.step] at hconsole
    split at hconsole
    · obtain ⟨c', hkey, heq⟩ := Option.map_eq_some_iff.1 hconsole
      cases heq
      rw [Option.getD_none, List.append_nil]
      exact h.key hallowed hkey
    · cases hconsole
  | read count =>
    obtain ⟨⟨p, reads⟩, -, hconsole⟩ := Option.bind_eq_some_iff.1 hconsole
    obtain ⟨m, hexec, heq⟩ := Option.bind_eq_some_iff.1 hconsole
    cases heq
    rw [Option.getD_none, List.append_nil]
    exact h.exec hexec (by simp) (by simp) _
  | poll => exact h.poll hallowed hconsole
  | other e =>
    simp only [Console.step] at hconsole
    split at hconsole
    · cases hconsole
    · rename_i hother
      obtain ⟨m, hexec, heq⟩ := Option.bind_eq_some_iff.1 hconsole
      cases heq
      rw [Option.getD_none, List.append_nil]
      refine h.exec hexec ?_ ?_ _
      · rintro rfl
        exact hother rfl
      · rintro rfl
        exact hother rfl

private theorem Held.boot : Held boot := by
  refine ⟨rfl, ⟨by simp [Session.boot, Editor.empty], .inl rfl⟩, Nat.zero_le _, _, Abs.boot, ?_⟩
  intro hready
  cases hready

/-- A read returns only where a whole line is buffered. -/
private theorem Held.complete (h : s.Held) {c : Console} {bytes : List UInt8}
    (hreturn : s.console.step .poll = some (c, some bytes)) :
    ∃ l, s.editor.committed = s.delivered ++ l ++ [newline] := by
  obtain ⟨ring, habs, hready⟩ := h.ready
  obtain ⟨m, hexec, hreturn⟩ := Option.bind_eq_some_iff.1 hreturn
  obtain ⟨o, hstep⟩ := exec_eq hexec
  obtain ⟨ring', hstep', -⟩ := habs.step hstep
  cases hstep' with
  | pollReady hruns hinput => exact h.editor.complete h.text (hready hinput)
  | pollWait hruns hinput =>
    have hreturns := returning_eq habs hruns
    rw [hinput] at hreturns
    simp [hreturns] at hreturn

/-- In every run whose steps are allowed, what the reads have delivered is a prefix of the edited input, and a read
returns only when a complete line is waiting. -/
theorem lineDiscipline {is : List Input} (hrun : Machine.Run step Allowed boot is s) :
    s.delivered <+: s.editor.text ∧
      ∀ c bytes, s.console.step .poll = some (c, some bytes) →
        ∃ l, s.editor.committed = s.delivered ++ l ++ [newline] := by
  have h : s.Held := hrun.inv (fun _ _ _ hheld hallowed hstep => hheld.step hallowed hstep) .boot
  exact ⟨⟨_, h.text⟩, fun c bytes hreturn => h.complete hreturn⟩

/-- Two processes, of which the first runs. -/
def start : List Input :=
  [.other (.create (.created 10 .zero)), .other (.create (.created 20 .zero)), .other .enableProcesses, .other .tick]

/-- The line `a` is typed while a read waits for it. -/
def oneLine : List Input := start ++ [.read 10, .poll, .key 0x1e, .key 0x1c, .other .tick, .poll]

theorem lineDiscipline_oneLine : ∃ s, Machine.Run step Allowed boot oneLine s ∧ s.delivered = [97, newline] ∧
    s.delivered <+: s.editor.text ∧
      ∀ c bytes, s.console.step .poll = some (c, some bytes) →
        ∃ l, s.editor.committed = s.delivered ++ l ++ [newline] := by
  have hrun : (oneLine.foldlM (fun s i => if Allowed s i then step s i else none) boot).map delivered =
      some [97, newline] := by
    decide +kernel
  obtain ⟨s, hs, hdelivered⟩ := Option.map_eq_some_iff.1 hrun
  exact ⟨s, Machine.run_iff_foldlM_guard.2 hs, hdelivered, lineDiscipline (Machine.run_iff_foldlM_guard.2 hs)⟩

/-- `ab` is typed and ended, read for one byte, and `c` is typed and ended and read. -/
def shortRead : List Input :=
  start ++ [.key 0x1e, .key 0x30, .key 0x1c, .read 1, .poll, .key 0x2e, .key 0x1c, .read 10, .poll]

/-- The bytes that the short read left are lost. -/
theorem not_lineDiscipline : ∃ s, Machine.Run step (fun _ _ => True) boot shortRead s ∧
    ¬ s.delivered <+: s.editor.text := by
  have hrun : (shortRead.foldlM step boot).map (fun s => (s.delivered, s.editor.text)) =
      some ([97, 99, newline], [97, 98, newline, 99, newline]) := by
    decide +kernel
  obtain ⟨s, hs, heq⟩ := Option.map_eq_some_iff.1 hrun
  obtain ⟨hdelivered, htext⟩ := Prod.mk.inj heq
  refine ⟨s, Machine.run_iff_foldlM.2 hs, ?_⟩
  rw [hdelivered, htext]
  decide

end Session

end DBolOS
