import DBolOS.Shell.Parse

/-!
# The commands of the terminal program

`execute_command` looks a word up in the table of commands by a comparison of as many bytes as the word has, so that the
word runs the first command it is the beginning of (`executeCommand_eq`).  The handlers are a parameter: a handler has a
result, and may change the list of arguments.
-/

namespace DBolOS.Shell

/-- `supported_commands`, in ASCII. -/
def supportedCommands : List (List UInt8) :=
  [[104, 101, 108, 112], -- help
    [108, 115], -- ls
    [99, 100], -- cd
    [99, 97, 116], -- cat
    [101, 99, 104, 111], -- echo
    [109, 107, 100, 105, 114], -- mkdir
    [114, 109], -- rm
    [114, 109, 100, 105, 114], -- rmdir
    [114, 117, 110], -- run
    [101, 120, 105, 116]] -- exit

/-- The C library's `strncmp`: at most `n` bytes, and none behind a terminator. -/
def strncmp : Nat → List UInt8 → List UInt8 → Option Int
  | 0, _, _ => some 0
  | n + 1, a :: s, b :: t =>
    if a ≠ b then some (a.toNat - b.toNat) else if a = 0 then some 0 else strncmp n s t
  | _, _, _ => none

/-- `command_funcs`. -/
abbrev CommandFuncs := Nat → List UInt8 → Args → Int × Args

/-- What `execute_command` does: the handlers it calls, the words it reports as unknown, its result, and the list of
arguments behind it. -/
structure Outcome where
  called : List Nat
  unknown : List (List UInt8)
  result : Int
  args : Args
  deriving DecidableEq

/-- The loop over the table, from the entry `i` on. -/
def findCommand (word : List UInt8) (cmdLen : Nat) : Nat → List (List UInt8) → Option (Option Nat)
  | _, [] => some none
  | i, command :: commands => do
    let r ← strncmp cmdLen (command ++ [0]) word
    if r = 0 then some (some i) else findCommand word cmdLen (i + 1) commands

def executeCommand (commandFuncs : CommandFuncs) (argBuffer : List UInt8) (args : Args) : Option Outcome := do
  match ← args[0]? with
  | none => some ⟨[], [], 1, args⟩
  | some p =>
    let word := argBuffer.drop p
    let cmdLen ← strlen word
    match ← findCommand word cmdLen 0 supportedCommands with
    | some i => some ⟨[i], [], (commandFuncs i argBuffer args).1, (commandFuncs i argBuffer args).2⟩
    | none => some ⟨[], [cstr word], 1, args⟩

/-! ### The search -/

/-- A comparison of as many bytes as the word has finds the strings that begin with it. -/
private theorem strncmp_word {word : List UInt8} (command rest : List UInt8) (hword : NoNul word) : ∃ r,
    strncmp word.length (command ++ [0]) (word ++ 0 :: rest) = some r ∧ (r = 0 ↔ word <+: command) := by
  induction word generalizing command with
  | nil => exact ⟨0, rfl, by simp⟩
  | cons b word ih =>
    obtain ⟨hb, hrest⟩ := hword.of_cons
    cases command with
    | nil =>
      refine ⟨_, if_pos (Ne.symm hb), ?_⟩
      have hpos : b.toNat ≠ 0 := fun h => hb (UInt8.toNat_inj.1 h)
      simp [hpos]
    | cons a command =>
      by_cases hab : a = b
      · subst hab
        obtain ⟨r, hr, hiff⟩ := ih command hrest
        refine ⟨r, ?_, ?_⟩
        · simp [strncmp, hb, hr]
        · rw [hiff]
          simp
      · refine ⟨_, if_pos hab, ?_⟩
        have hinit : ¬ b :: word <+: a :: command := fun h => hab (List.cons_prefix_cons.1 h).1.symm
        rw [iff_false_right hinit, sub_eq_zero]
        intro h
        exact hab (UInt8.toNat_inj.1 (by exact_mod_cast h))

private theorem findCommand_eq {word : List UInt8} (rest : List UInt8) (hword : NoNul word) (i : Nat)
    (commands : List (List UInt8)) : findCommand (word ++ 0 :: rest) word.length i commands =
      some ((commands.findIdx? fun command => decide (word <+: command)).map (· + i)) := by
  induction commands generalizing i with
  | nil => rfl
  | cons command commands ih =>
    obtain ⟨r, hr, hiff⟩ := strncmp_word command rest hword
    rw [findCommand, hr, Option.bind_eq_bind, Option.bind_some, List.findIdx?_cons]
    by_cases hinit : word <+: command
    · simp [hiff.2 hinit, hinit]
    · have hne : ¬ r = 0 := fun h => hinit (hiff.1 h)
      rw [if_neg hne, ih]
      simp [hinit, Function.comp_def, Nat.add_assoc, Nat.add_comm 1 i]

section Word

variable {argBuffer : List UInt8} {args : Args} {p : Nat} {word rest : List UInt8}

/-- The first command that begins with the word is run. -/
private theorem executeCommand_eq (commandFuncs : CommandFuncs) (hargs : args[0]? = some (some p))
    (hdrop : argBuffer.drop p = word ++ 0 :: rest) (hword : NoNul word) :
    executeCommand commandFuncs argBuffer args =
      match supportedCommands.findIdx? fun command => decide (word <+: command) with
      | some i => some ⟨[i], [], (commandFuncs i argBuffer args).1, (commandFuncs i argBuffer args).2⟩
      | none => some ⟨[], [word], 1, args⟩ := by
  have hstrlen : strlen (word ++ 0 :: rest) = some word.length := by
    rw [strlen_eq, if_pos (by simp), cstr_append_zero hword]
  simp only [executeCommand, hargs, hdrop, hstrlen, findCommand_eq rest hword, Option.bind_eq_bind, Option.bind_some,
    Nat.add_zero, Option.map_id', cstr_append_zero hword]

/-- The handler of the command that the word is runs, and no handler runs otherwise. -/
def RunsTyped (commandFuncs : CommandFuncs) (argBuffer : List UInt8) (args : Args) (word : List UInt8) : Prop :=
  ∃ o, executeCommand commandFuncs argBuffer args = some o ∧ (∀ i, i ∈ o.called ↔ supportedCommands[i]? = some word) ∧
    (word ∉ supportedCommands → o.called = [] ∧ o.result = 1)

/-- A command is no beginning of an earlier one. -/
private theorem findIdx?_command : ∀ i : Fin supportedCommands.length,
    (supportedCommands.findIdx? fun command => decide (supportedCommands[i] <+: command)) = some i.1 := by
  decide

private theorem nodup_supportedCommands : supportedCommands.Nodup := by
  decide

/-- What is typed is what runs, unless it is the beginning of a command and no command. -/
theorem runsTyped_iff (commandFuncs : CommandFuncs) (hargs : args[0]? = some (some p))
    (hdrop : argBuffer.drop p = word ++ 0 :: rest) (hword : NoNul word) :
    RunsTyped commandFuncs argBuffer args word ↔
      (word ∈ supportedCommands ∨ ∀ command ∈ supportedCommands, ¬ word <+: command) := by
  have hexecute := executeCommand_eq commandFuncs hargs hdrop hword
  constructor
  · intro h
    obtain ⟨o, ho, -, hunknown⟩ := h
    by_cases hmem : word ∈ supportedCommands
    · exact .inl hmem
    refine .inr ?_
    cases hfind : supportedCommands.findIdx? fun command => decide (word <+: command) with
    | none => simpa [List.findIdx?_eq_none_iff] using hfind
    | some i =>
      rw [hexecute, hfind, Option.some_inj] at ho
      have hcalled := (hunknown hmem).1
      rw [← ho] at hcalled
      cases hcalled
  · intro h
    rcases h with hmem | hnone
    · obtain ⟨i, hi, rfl⟩ := List.getElem_of_mem hmem
      have hfind := findIdx?_command ⟨i, hi⟩
      rw [Fin.getElem_fin] at hfind
      rw [hfind] at hexecute
      refine ⟨_, hexecute, ?_, fun h => absurd hmem h⟩
      intro j
      rw [List.mem_singleton, ← List.getElem?_eq_getElem hi]
      constructor
      · intro h
        rw [h]
      · intro h
        exact ((List.getElem?_inj hi nodup_supportedCommands).1 h.symm).symm
    · have hfind : (supportedCommands.findIdx? fun command => decide (word <+: command)) = none := by
        simpa [List.findIdx?_eq_none_iff] using hnone
      rw [hfind] at hexecute
      refine ⟨_, hexecute, ?_, fun _ => ⟨rfl, rfl⟩⟩
      intro j
      constructor
      · intro h
        cases h
      · intro h
        exact absurd (List.prefix_refl word) (hnone word (List.mem_of_getElem? h))

end Word

/-- The command `rm` runs as typed. -/
theorem runsTyped_rm : RunsTyped (fun _ _ args => (1, args)) [114, 109, 0] [some 0, none] [114, 109] := by
  have hmem : [114, 109] ∈ supportedCommands := by simp [supportedCommands]
  have hargs : ([some 0, none] : Args)[0]? = some (some 0) := rfl
  have hdrop : ([114, 109, 0] : List UInt8).drop 0 = [114, 109] ++ 0 :: [] := rfl
  have hword : NoNul [114, 109] := by simp [NoNul]
  exact (runsTyped_iff (fun _ _ args => (1, args)) hargs hdrop hword).2 (.inl hmem)

/-- The letter `r` deletes a file: it runs the handler of `rm`. -/
theorem not_runsTyped_r : executeCommand (fun _ _ args => (1, args)) [114, 0, 120, 0] [some 0, some 2, none] =
    some ⟨[6], [], 1, [some 0, some 2, none]⟩ ∧
    ¬ RunsTyped (fun _ _ args => (1, args)) [114, 0, 120, 0] [some 0, some 2, none] [114] := by
  have hrun : executeCommand (fun _ _ args => (1, args)) [114, 0, 120, 0] [some 0, some 2, none] =
      some ⟨[6], [], 1, [some 0, some 2, none]⟩ := by decide
  refine ⟨hrun, ?_⟩
  intro h
  obtain ⟨o, ho, hcalled, -⟩ := h
  rw [hrun, Option.some_inj] at ho
  subst ho
  have htyped := (hcalled 6).1 (by decide)
  revert htyped
  decide

/-! ### The loop of the shell -/

/-- The locals of `start_shell`. -/
structure Locals where
  input : List UInt8
  argBuffer : List UInt8
  args : Args
  status : Int

/-- One turn of the loop of `start_shell` on what `read` delivers, `none` for an error.  The error is `-1`, which as a
`size_t` is more than zero: the terminator is then stored in front of `input`. -/
def startShellStep (commandFuncs : CommandFuncs) (line : Option (List UInt8)) (l : Locals) : Option Locals :=
  match line with
  | none => none
  | some [] => some l
  | some line => do
    let input ← store (line ++ l.input.drop line.length) (line.length - 1) 0
    let (argCount, argBuffer, args) ← parseInput input l.argBuffer l.args
    if argCount = 0 then some { l with input, argBuffer, args }
    else do
      let o ← executeCommand commandFuncs argBuffer args
      some ⟨input, argBuffer, o.args, o.result⟩

/-- The arrays have the sizes they are declared with. -/
structure Locals.Sized (l : Locals) : Prop where
  input : l.input.length = maxInputLength
  argBuffer : l.argBuffer.length = maxInputLength
  args : l.args.length = maxArgs

private theorem executeCommand_total {commandFuncs : CommandFuncs} {argBuffer : List UInt8} {args : Args} {p : Nat}
    (hargs : args[0]? = some (some p)) (hterminated : 0 ∈ argBuffer.drop p)
    (hfuncs : ∀ i argBuffer args, (commandFuncs i argBuffer args).2.length = args.length) :
    ∃ o, executeCommand commandFuncs argBuffer args = some o ∧ o.args.length = args.length := by
  rcases cstr_eq_or_append (argBuffer.drop p) with hall | ⟨rest, hrest⟩
  · exact absurd rfl (noNul_cstr (argBuffer.drop p) 0 (hall.symm ▸ hterminated))
  rw [executeCommand_eq commandFuncs hargs hrest (noNul_cstr _)]
  split
  · exact ⟨_, rfl, hfuncs _ _ _⟩
  · exact ⟨_, rfl, rfl⟩

/-- A line that was read leads to no access outside an array, whatever the words on it. -/
private theorem Locals.Sized.step {commandFuncs : CommandFuncs} {line : List UInt8} {l : Locals} (hl : l.Sized)
    (hline : line.length ≤ maxInputLength)
    (hfuncs : ∀ i argBuffer args, (commandFuncs i argBuffer args).2.length = args.length) :
    ∃ l', startShellStep commandFuncs (some line) l = some l' ∧ l'.Sized := by
  cases line with
  | nil => exact ⟨l, rfl, hl⟩
  | cons b line =>
    obtain ⟨whole, hwhole⟩ : ∃ whole, whole = (b :: line) ++ l.input.drop (b :: line).length := ⟨_, rfl⟩
    have hlen : whole.length = maxInputLength := by
      rw [hwhole, List.length_append, List.length_drop, hl.input]
      omega
    have hlast : (b :: line).length - 1 < whole.length := by
      rw [hlen]
      simp at hline ⊢
      omega
    have hstore : store whole ((b :: line).length - 1) 0 = some (whole.set ((b :: line).length - 1) 0) := if_pos hlast
    have hlen' : (whole.set ((b :: line).length - 1) 0).length = maxInputLength := by rw [List.length_set, hlen]
    have hterminated : 0 ∈ whole.set ((b :: line).length - 1) 0 := List.mem_set hlast 0
    generalize whole.set ((b :: line).length - 1) 0 = input at hstore hlen' hterminated
    obtain ⟨n, argBuffer, args, hparse, -, hwords, -, hbuffer, hargs⟩ := parseInput_words hterminated
      (hlen' ▸ length_cstr_lt hterminated) hl.argBuffer hl.args
    rw [startShellStep, ← hwhole, hstore]
    · simp only [Option.bind_eq_bind, Option.bind_some, hparse]
      split
      · exact ⟨_, rfl, hlen', hbuffer, hargs⟩
      · next hn =>
        obtain ⟨p, word, rest, hp, -, hdrop⟩ := hwords 0 (by omega)
        obtain ⟨o, ho, hoargs⟩ := executeCommand_total hp (by rw [hdrop]; simp) hfuncs
        rw [ho]
        exact ⟨_, rfl, hlen', hbuffer, by rw [hoargs, hargs]⟩
    · exact List.cons_ne_nil b line

/-- A run of the shell over the lines it reads keeps inside its arrays. -/
theorem Locals.Sized.run {commandFuncs : CommandFuncs} {lines : List (List UInt8)} {l : Locals} (hl : l.Sized)
    (hlines : ∀ line ∈ lines, line.length ≤ maxInputLength)
    (hfuncs : ∀ i argBuffer args, (commandFuncs i argBuffer args).2.length = args.length) :
    ∃ l', lines.foldlM (fun l line => startShellStep commandFuncs (some line) l) l = some l' ∧ l'.Sized := by
  induction lines generalizing l with
  | nil => exact ⟨l, rfl, hl⟩
  | cons line lines ih =>
    obtain ⟨l', hl', hsized⟩ := hl.step (hlines line List.mem_cons_self) hfuncs
    obtain ⟨l'', hl'', hsized'⟩ := ih hsized fun line' h => hlines line' (List.mem_cons_of_mem _ h)
    exact ⟨l'', by rw [List.foldlM_cons, hl']; exact hl'', hsized'⟩

end DBolOS.Shell
