import DBolOS.Dev.LineBuffer
import DBolOS.Dev.Terminal

/-!
# The line buffer of a console

`keyboard_handler` and `read_terminal_input` over the fields of the terminal (`Console`) and over its bytes (`Line`).
Where the bytes hold the input of a console they do after every step, and a read that returns delivers the bytes that it
copies from them (`Stores.run`).
-/

namespace DBolOS.LineBuffer

open ByteMem Keyboard Proc Proc.Manager

/-- The bytes from `t` on hold the input of the console. -/
structure Stores (t : Nat) (l : Line) (c : Console) : Prop where
  bytes : ∀ i (h : i < INPUT_BUFFER_SIZE), l.mem (t + inputBufOffset + i) = c.inputBuf[i]
  length : (inputLen t l.mem).toNat = c.inputLen
  room : c.inputLen ≤ INPUT_BUFFER_SIZE
  keyboard : l.keyboard = c.keyboard
  ready : ∃ ring, Abs c.manager ring ∧ ring.inputReady = isInputReady t l.mem

variable {c c' : Console} {t : Nat} {l : Line}

/-! ### The buffer -/

section Buffer

variable {m : ByteMem} {buf : Vector UInt8 INPUT_BUFFER_SIZE} {i : Nat}

private theorem putInput_bytes (ht : t + sizeofTerminalStruct ≤ 2 ^ 32) {k : UInt32} {char : UInt8}
    (hk : k.toNat < INPUT_BUFFER_SIZE) (h : i < INPUT_BUFFER_SIZE) (hm : m (t + inputBufOffset + i) = buf[i]) :
    putInput t m k char (t + inputBufOffset + i) = (buf.set k.toNat char hk)[i] := by
  have hsize : INPUT_BUFFER_SIZE = 256 := rfl
  simp only [sizeofTerminalStruct] at ht
  unfold putInput
  rw [Nat.mod_eq_of_lt (by simp only [inputBufOffset]; omega), Vector.getElem_set]
  split
  · rename_i heq
    subst heq
    rw [writeBytes_inside _ (Nat.le_refl _) (by simp)]
    simp
  · rename_i hne
    rw [writeBytes_outside _ (by simp only [List.length_singleton]; omega)]
    exact hm

private theorem write_length_bytes (n : UInt32) (h : i < INPUT_BUFFER_SIZE) :
    write32 m (t + inputLenOffset) n (t + inputBufOffset + i) = m (t + inputBufOffset + i) := by
  apply write32_outside
  simp only [INPUT_BUFFER_SIZE, inputLenOffset, inputBufOffset] at h ⊢
  omega

end Buffer

/-! ### Keys -/

private theorem Stores.erase (ht : t + sizeofTerminalStruct ≤ 2 ^ 32) (h : Stores t l c) :
    Stores t { l with mem := if inputLen t l.mem > 0 then LineBuffer.erase t l.mem else l.mem } c.erase := by
  have hlength := h.length
  have hroom := h.room
  unfold Console.erase
  by_cases hpos : 0 < c.inputLen
  · have hpos' : 0 < (inputLen t l.mem).toNat := by omega
    have hpred := toNat_sub_one hpos'
    have hlt : (inputLen t l.mem - 1).toNat < INPUT_BUFFER_SIZE := by omega
    rw [if_pos hpos, if_pos (show inputLen t l.mem > 0 from hpos')]
    refine ⟨fun i hi => ?_, ?_, by show c.inputLen - 1 ≤ _; omega, h.keyboard, ?_⟩
    · refine (putInput_bytes ht hlt hi ((write_length_bytes _ hi).trans (h.bytes i hi))).trans ?_
      simp only [Vector.getElem_set, Vector.getElem_setIfInBounds, hpred, hlength]
    · show (inputLen t (LineBuffer.erase t l.mem)).toNat = c.inputLen - 1
      rw [inputLen_erase ht hpos' (hlength.trans_le hroom), hpred, hlength]
    · obtain ⟨ring, habs, hready⟩ := h.ready
      exact ⟨ring, habs, hready.trans (isInputReady_erase ht hpos' (hlength.trans_le hroom)).symm⟩
  · have hzero : ¬ inputLen t l.mem > 0 := by
      intro hgt
      have hgt' : 0 < (inputLen t l.mem).toNat := hgt
      omega
    rw [if_neg hpos, if_neg hzero]
    exact h

private theorem Stores.store (ht : t + sizeofTerminalStruct ≤ 2 ^ 32) (h : Stores t l c) {char : UInt8}
    (hstore : c.store char = some c') : Stores t { l with mem := storeChar t l.mem char } c' := by
  have hlength := h.length
  unfold Console.store at hstore
  split at hstore
  · rename_i hlt
    cases hstore
    have hlt' : (inputLen t l.mem).toNat < INPUT_BUFFER_SIZE := hlength.trans_lt hlt
    refine ⟨fun i hi => ?_, ?_, hlt, h.keyboard, ?_⟩
    · refine (putInput_bytes ht hlt' hi ((write_length_bytes _ hi).trans (h.bytes i hi))).trans ?_
      simp only [Vector.getElem_set, hlength]
    · show (inputLen t (storeChar t l.mem char)).toNat = c.inputLen + 1
      rw [inputLen_storeChar ht hlt', UInt32.toNat_add, hlength]
      simp only [INPUT_BUFFER_SIZE] at hlt
      have hone : (1 : UInt32).toNat = 1 := rfl
      omega
    · obtain ⟨ring, habs, hready⟩ := h.ready
      exact ⟨ring, habs, hready.trans (isInputReady_storeChar ht hlt').symm⟩
  · cases hstore

private theorem Stores.setReady (h : Stores t l c) {m₁ m₂ : Manager} (hm₁ : c.manager.setInputReady true = some m₁)
    (hm₂ : m₁.wakeUpTerminalProcesses m₁.activeTerminalId = some m₂) :
    Stores t { l with mem := writeBytes l.mem (t + isInputReadyOffset) [1] } { c with manager := m₂ } := by
  obtain ⟨ring, habs, -⟩ := h.ready
  obtain ⟨-, -, -, habs'⟩ := (habs.setInputReady_spec hm₁).wakeUp_eq hm₂
  refine ⟨fun i hi => ?_, ?_, h.room, h.keyboard, _, habs', ?_⟩
  · refine (writeBytes_outside _ (.inl ?_)).trans (h.bytes i hi)
    simp only [INPUT_BUFFER_SIZE, isInputReadyOffset, inputBufOffset] at hi ⊢
    omega
  · show (inputLen t (writeBytes l.mem (t + isInputReadyOffset) [1])).toNat = c.inputLen
    rw [inputLen_setReady]
    exact h.length
  · exact (isInputReady_setReady l.mem 1).symm

/-- A key does to the bytes what it does to the console. -/
private theorem Stores.key (ht : t + sizeofTerminalStruct ≤ 2 ^ 32) (h : Stores t l c) {scanCode : UInt8}
    (hkey : c.keyboardHandler scanCode = some c') : Stores t (keyboardHandler t l scanCode).1 c' := by
  unfold Console.keyboardHandler at hkey
  unfold keyboardHandler
  rw [← h.keyboard] at hkey
  split at hkey
  · rename_i hreleased
    cases hkey
    rw [if_pos hreleased]
    exact ⟨h.bytes, h.length, h.room, rfl, h.ready⟩
  rename_i hreleased
  rw [if_neg hreleased]
  rcases Option.eq_none_or_eq_some (l.keyboard.press scanCode) with hpress | ⟨keyboard, hpress⟩
  swap
  · rw [hpress] at hkey ⊢
    cases hkey
    exact ⟨h.bytes, h.length, h.room, rfl, h.ready⟩
  rw [hpress] at hkey ⊢
  dsimp only at hkey ⊢
  split at hkey
  · cases hkey
  split at hkey
  · rename_i hback
    cases hkey
    have herase := h.erase ht
    rw [if_pos hback]
    split
    · rename_i hpos
      rwa [if_pos hpos] at herase
    · rename_i hzero
      rwa [if_neg hzero] at herase
  · rename_i hback
    obtain ⟨c₁, hstore, hkey⟩ := Option.bind_eq_some_iff.1 hkey
    rw [if_neg hback]
    have hstores := h.store ht hstore
    split at hkey
    · rename_i hnewline
      obtain ⟨m₁, hm₁, hkey⟩ := Option.bind_eq_some_iff.1 hkey
      obtain ⟨m₂, hm₂, hkey⟩ := Option.bind_eq_some_iff.1 hkey
      cases hkey
      rw [if_pos hnewline]
      exact hstores.setReady hm₁ hm₂
    · rename_i hnewline
      cases hkey
      rw [if_neg hnewline]
      exact hstores

/-! ### Reads -/

/-- A read that returns clears the buffer. -/
private theorem Stores.take (h : Stores t l c) (hready : isInputReady t l.mem = true)
    {m : Manager} {ring : Sched} (habs : Abs m ring) (hring : ring.inputReady = false) (count : UInt32) :
    Stores t (step t l (.read count)).1 ({ c with manager := m }.takeInput count).1 := by
  have hsize : INPUT_BUFFER_SIZE = 256 := rfl
  show Stores t (readTerminalInput t l count).1.1 _
  unfold readTerminalInput
  rw [if_pos hready]
  refine ⟨fun i hi => ?_, ?_, Nat.zero_le _, h.keyboard, ring, habs, ?_⟩
  · refine (write_length_bytes _ hi).trans ?_
    show _ = (Vector.replicate INPUT_BUFFER_SIZE (0 : UInt8))[i]
    rw [writeBytes_inside _ (by omega) (by rw [List.length_replicate]; omega)]
    simp
  · exact congrArg UInt32.toNat (read32_write32 _ _ 0)
  · rw [hring]
    unfold isInputReady
    dsimp only
    rw [write32_outside _ (by simp only [inputLenOffset, isInputReadyOffset]; omega), writeBytes_outside,
      writeBytes_inside _ (Nat.le_refl _) (by simp)]
    · simp
    · simp only [inputBufOffset, isInputReadyOffset, List.length_replicate]
      omega

/-- It delivers the bytes that it copies from there. -/
private theorem Stores.readTerminalInput_eq (h : Stores t l c) (hready : isInputReady t l.mem = true) (count : UInt32) :
    (readTerminalInput t l count).2 = some (c.takeInput count).2 := by
  have hlength := h.length
  have hroom := h.room
  have hsize : INPUT_BUFFER_SIZE = 256 := rfl
  unfold readTerminalInput Console.takeInput
  rw [if_pos hready]
  dsimp only
  obtain ⟨n, hn, hle⟩ : ∃ n, (if count > inputLen t l.mem then inputLen t l.mem else count).toNat = n ∧
      n ≤ INPUT_BUFFER_SIZE := by
    refine ⟨_, rfl, ?_⟩
    split
    · omega
    · rename_i hcount
      have := UInt32.le_iff_toNat_le.1 (UInt32.not_lt.1 hcount)
      omega
  have hcopy : (if c.inputLen < count.toNat then c.inputLen else count.toNat) = n := by
    rw [← hn, ← hlength]
    split
    · rename_i hlt
      rw [if_pos (UInt32.lt_iff_toNat_lt.2 hlt)]
    · rename_i hge
      rw [if_neg (mt UInt32.lt_iff_toNat_lt.1 hge)]
  rw [hn, hcopy]
  refine congrArg some (List.ext_getElem ?_ fun i hi hi' => ?_)
  · rw [length_readBytes, List.length_take, Vector.length_toList]
    omega
  · rw [length_readBytes] at hi
    have hget := getElem?_readBytes l.mem (t + inputBufOffset) hi
    rw [List.getElem?_eq_getElem (by rwa [length_readBytes]), Option.some.injEq] at hget
    rw [hget, List.getElem_take, Vector.getElem_toList]
    exact h.bytes i (by omega)

/-- What a step of the console does to the bytes. -/
def onBytes (c : Console) : Console.Input → List Input
  | .key scanCode => [.key scanCode]
  | .poll => (c.returning.map Input.read).toList
  | _ => []

/-- What the reads among the inputs deliver. -/
def delivered (t : Nat) : Line → List Input → List UInt8
  | _, [] => []
  | l, .key scanCode :: inputs => delivered t (step t l (.key scanCode)).1 inputs
  | l, .read count :: inputs => (readTerminalInput t l count).2.getD [] ++ delivered t (step t l (.read count)).1 inputs

private theorem run_append (l : Line) (is js : List Input) :
    run t l (is ++ js) = run t (run t l is) js := List.foldl_append

private theorem delivered_append (l : Line) (is js : List Input) :
    delivered t l (is ++ js) = delivered t l is ++ delivered t (run t l is) js := by
  induction is generalizing l with
  | nil => rfl
  | cons i is ih =>
    cases i with
    | key scanCode => exact ih _
    | read count =>
      rw [List.cons_append, delivered, delivered, ih, List.append_assoc]
      rfl

private theorem Stores.poll (h : Stores t l c) {bytes : Option (List UInt8)}
    (hpoll : c.step .poll = some (c', bytes)) :
    Stores t (LineBuffer.run t l (onBytes c .poll)) c' ∧ bytes.getD [] = delivered t l (onBytes c .poll) := by
  obtain ⟨ring, habs, hready⟩ := h.ready
  obtain ⟨m, hexec, hpoll⟩ := Option.bind_eq_some_iff.1 hpoll
  obtain ⟨o, hstep⟩ := exec_eq hexec
  obtain ⟨ring', hstep', habs'⟩ := habs.step hstep
  cases hstep' with
  | @pollReady p hruns hinput =>
    have hreturns := Session.returning_eq habs hruns
    rw [if_pos hinput] at hreturns
    simp only [hreturns, Option.some.injEq, Prod.mk.injEq] at hpoll
    obtain ⟨rfl, rfl⟩ := hpoll
    have hon : onBytes c .poll = [.read (c.count p)] := by rw [onBytes, hreturns]; rfl
    have hset := hready.symm.trans hinput
    rw [hon]
    refine ⟨h.take hset habs' rfl (c.count p), ?_⟩
    rw [delivered, h.readTerminalInput_eq hset, delivered, List.append_nil]
    rfl
  | pollWait hruns hinput hswitch =>
    have hreturns := Session.returning_eq habs hruns
    rw [hinput] at hreturns
    have hnone : c.returning = none := by simpa using hreturns
    simp only [hnone, Option.some.injEq, Prod.mk.injEq] at hpoll
    obtain ⟨rfl, rfl⟩ := hpoll
    have hon : onBytes c .poll = [] := by rw [onBytes, hnone]; rfl
    rw [hon]
    exact ⟨⟨h.bytes, h.length, h.room, h.keyboard, ring', habs', hswitch.inputReady.trans hready⟩, rfl⟩

/-- An entry that neither types nor returns from a read. -/
private theorem Stores.exec (h : Stores t l c) {e : Event} {m : Manager} (hexec : c.manager.exec e = some m)
    (hne : e ≠ .newline) (hnp : e ≠ .poll) (count : Nat → UInt32) :
    Stores t l { c with manager := m, count := count } := by
  obtain ⟨ring, habs, hready⟩ := h.ready
  obtain ⟨o, hstep⟩ := exec_eq hexec
  obtain ⟨ring', hstep', habs'⟩ := habs.step hstep
  exact ⟨h.bytes, h.length, h.room, h.keyboard, ring', habs', (hstep'.inputReady_eq hne hnp).trans hready⟩

/-- Every step of a console is that of the bytes. -/
private theorem Stores.step (ht : t + sizeofTerminalStruct ≤ 2 ^ 32) (h : Stores t l c) {i : Console.Input}
    {bytes : Option (List UInt8)} (hstep : c.step i = some (c', bytes)) :
    Stores t (LineBuffer.run t l (onBytes c i)) c' ∧ bytes.getD [] = delivered t l (onBytes c i) := by
  cases i with
  | key scanCode =>
    simp only [Console.step] at hstep
    split at hstep
    · obtain ⟨c₁, hkey, heq⟩ := Option.map_eq_some_iff.1 hstep
      cases heq
      exact ⟨h.key ht hkey, rfl⟩
    · cases hstep
  | read count =>
    obtain ⟨⟨p, reads⟩, -, hstep⟩ := Option.bind_eq_some_iff.1 hstep
    obtain ⟨m, hexec, heq⟩ := Option.bind_eq_some_iff.1 hstep
    cases heq
    exact ⟨h.exec hexec (by simp) (by simp) _, rfl⟩
  | poll => exact h.poll hstep
  | other e =>
    simp only [Console.step] at hstep
    split at hstep
    · cases hstep
    · rename_i hother
      obtain ⟨m, hexec, heq⟩ := Option.bind_eq_some_iff.1 hstep
      cases heq
      refine ⟨h.exec hexec ?_ ?_ c.count, rfl⟩
      · rintro rfl
        exact hother rfl
      · rintro rfl
        exact hother rfl

/-! ### Runs -/

/-- After every run of a session the bytes hold the input of its console, and the reads have delivered what the bytes
gave. -/
theorem Stores.run {C : Session → Console.Input → Prop} {s s' : Session} {is : List Console.Input}
    (ht : t + sizeofTerminalStruct ≤ 2 ^ 32) (h : Stores t l s.console) (hrun : Machine.Run Session.step C s is s') :
    ∃ inputs, Stores t (LineBuffer.run t l inputs) s'.console ∧ s'.delivered = s.delivered ++ delivered t l inputs := by
  induction hrun generalizing l with
  | nil s => exact ⟨[], h, (List.append_nil _).symm⟩
  | @cons s s₁ s' i is _ hs _ ih =>
    obtain ⟨⟨c, bytes⟩, hconsole, heq⟩ := Option.bind_eq_some_iff.1 hs
    cases heq
    obtain ⟨hstores, hbytes⟩ := h.step ht hconsole
    obtain ⟨inputs, hall, hdelivered⟩ := ih hstores
    refine ⟨onBytes s.console i ++ inputs, ?_, ?_⟩
    · rw [run_append]
      exact hall
    · rw [hdelivered, delivered_append, ← hbytes, List.append_assoc]

/-- A cleared terminal holds the input at boot. -/
theorem stores_boot (t : Nat) : Stores t ⟨fun _ => 0, .zero⟩ Session.boot.console := by
  refine ⟨fun i hi => ?_, rfl, Nat.zero_le _, rfl, _, Abs.boot, rfl⟩
  show (0 : UInt8) = (Vector.replicate INPUT_BUFFER_SIZE (0 : UInt8))[i]
  simp

end DBolOS.LineBuffer
