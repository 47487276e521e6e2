import DBolOS.CString
import DBolOS.Lib.Words

/-!
# The words of a command line

`parse_input` of the terminal program: it copies the words of a line into a buffer, each with its terminator, and lists
where they start.  An access outside an object is `none`.  The line is cut at the white space of the C locale, and one
place of the list is kept for the `NULL` at its end.
-/

namespace DBolOS.Shell

open Words

def maxInputLength : Nat := 256

def maxArgs : Nat := 64

/-- The C library's `isspace` in the C locale. -/
def isspace (c : UInt8) : Bool := c == 0x20 || (0x09 ≤ c && c ≤ 0x0d)

/-- An element of an array is assigned. -/
def store {α : Type} (xs : List α) (i : Nat) (a : α) : Option (List α) :=
  if i < xs.length then some (xs.set i a) else none

/-- The index of the next byte that is no white space. -/
def skipSpace (input : List UInt8) (inputLen i : Nat) : Option Nat :=
  if i < inputLen then
    match input[i]? with
    | none => none
    | some c => if isspace c then skipSpace input inputLen (i + 1) else some i
  else some i
termination_by inputLen - i

/-- The bytes up to the next white space are copied: `i`, `buf_pos` and the buffer behind them. -/
def copyWord (input : List UInt8) (inputLen i bufPos : Nat) (argBuffer : List UInt8) :
    Option (Nat × Nat × List UInt8) :=
  if i < inputLen then
    match input[i]? with
    | none => none
    | some c =>
      if isspace c then some (i, bufPos, argBuffer)
      else
        match store argBuffer bufPos c with
        | none => none
        | some argBuffer => copyWord input inputLen (i + 1) (bufPos + 1) argBuffer
  else some (i, bufPos, argBuffer)
termination_by inputLen - i

/-- An argument is the place in `arg_buffer` it points to, or `NULL`. -/
abbrev Args := List (Option Nat)

/-- The loop over the words: `arg_count` and the two arrays behind it. -/
def wordsLoop (input : List UInt8) (inputLen argCount bufPos i : Nat) (argBuffer : List UInt8) (args : Args) :
    Option (Nat × List UInt8 × Args) :=
  if i < inputLen ∧ argCount < maxArgs - 1 then do
    let args ← store args argCount (some bufPos)
    let (i, bufPos, argBuffer) ← copyWord input inputLen i bufPos argBuffer
    let argBuffer ← store argBuffer bufPos 0
    let i ← skipSpace input inputLen i
    wordsLoop input inputLen (argCount + 1) (bufPos + 1) i argBuffer args
  else some (argCount, argBuffer, args)
termination_by maxArgs - argCount

/-- The result and the two arrays, from what they held before. -/
def parseInput (input argBuffer : List UInt8) (args : Args) : Option (Nat × List UInt8 × Args) := do
  let inputLen ← strlen input
  let i ← skipSpace input inputLen 0
  let (argCount, argBuffer, args) ← wordsLoop input inputLen 0 0 i argBuffer args
  let args ← store args argCount none
  some (argCount, argBuffer, args)

/-! ### The scanning loops -/

section Scan

variable {s u : List UInt8} {i : Nat}

private theorem getElem?_line (hi : i < s.length) : (s ++ 0 :: u)[i]? = some s[i] := by
  rw [List.getElem?_append_left hi, List.getElem?_eq_getElem hi]

private theorem skipSpace_eq (hi : i ≤ s.length) : ∃ j ≤ s.length, skipSpace (s ++ 0 :: u) s.length i = some j ∧
    s.drop j = (s.drop i).dropWhile isspace := by
  obtain ⟨n, hn⟩ := Nat.exists_eq_add_of_le hi
  induction n generalizing i with
  | zero =>
    refine ⟨i, hi, ?_, ?_⟩
    · rw [skipSpace, if_neg (by omega)]
    · rw [List.drop_eq_nil_of_le (by omega)]
      rfl
  | succ n ih =>
    have hlt : i < s.length := by omega
    rw [skipSpace, if_pos hlt, getElem?_line hlt, List.drop_eq_getElem_cons hlt]
    by_cases hspace : isspace s[i] = true
    · obtain ⟨j, hj, hskip, hdrop⟩ := ih hlt (by omega)
      refine ⟨j, hj, ?_, ?_⟩
      · simpa [hspace] using hskip
      · rw [List.dropWhile_cons_of_pos hspace, hdrop]
    · refine ⟨i, hi, ?_, ?_⟩
      · simp [hspace]
      · rw [List.dropWhile_cons_of_neg hspace, ← List.drop_eq_getElem_cons hlt]

private theorem store_append {α : Type} (front back : List α) (b a : α) :
    store (front ++ b :: back) front.length a = some (front ++ a :: back) := by
  rw [store, if_pos (by simp)]
  simp

/-- The word at `i` replaces what stood behind the bytes copied so far. -/
private theorem copyWord_eq (front back : List UInt8) (hi : i ≤ s.length)
    (hroom : ((s.drop i).takeWhile fun c => !isspace c).length ≤ back.length) :
    ∃ word, word = (s.drop i).takeWhile (fun c => !isspace c) ∧
      s.drop (i + word.length) = (s.drop i).dropWhile (fun c => !isspace c) ∧ i + word.length ≤ s.length ∧
      copyWord (s ++ 0 :: u) s.length i front.length (front ++ back) =
        some (i + word.length, (front ++ word).length, front ++ word ++ back.drop word.length) := by
  obtain ⟨n, hn⟩ := Nat.exists_eq_add_of_le hi
  induction n generalizing i front back with
  | zero =>
    have hnil : s.drop i = [] := List.drop_eq_nil_of_le (by omega)
    refine ⟨[], ?_, ?_, hi, ?_⟩
    · simp [hnil]
    · simp [hnil]
    · rw [copyWord, if_neg (by omega)]
      simp
  | succ n ih =>
    have hlt : i < s.length := by omega
    rw [copyWord, if_pos hlt, getElem?_line hlt]
    rw [List.drop_eq_getElem_cons hlt] at hroom ⊢
    dsimp only
    by_cases hspace : isspace s[i] = true
    · rw [if_pos hspace]
      refine ⟨[], ?_, ?_, hi, ?_⟩
      · simp [hspace]
      · rw [List.dropWhile_cons_of_neg (by simpa using hspace), ← List.drop_eq_getElem_cons hlt]
        rfl
      · simp
    · rw [List.takeWhile_cons_of_pos (by simpa using hspace)] at hroom ⊢
      obtain ⟨b, back, rfl⟩ := List.exists_cons_of_length_pos (Nat.lt_of_lt_of_le (by simp) hroom : 0 < back.length)
      have hfront : (front ++ [s[i]]).length = front.length + 1 := by simp
      obtain ⟨word, hword, hrest, hle, hcopy⟩ :=
        ih (front ++ [s[i]]) back hlt (by simpa using hroom) (by omega)
      rw [hfront, List.append_assoc, List.singleton_append] at hcopy
      refine ⟨s[i] :: word, ?_, ?_, ?_, ?_⟩
      · rw [← hword]
      · rw [List.length_cons, show i + (word.length + 1) = i + 1 + word.length by omega, hrest,
          List.dropWhile_cons_of_pos (by simpa using hspace)]
      · rw [List.length_cons]
        omega
      · rw [if_neg hspace, store_append]
        dsimp only
        rw [hcopy]
        simp
        omega

/-! ### The words in the buffer -/

/-- The words one behind another, each with its terminator. -/
def laid (ws : List (List UInt8)) : List UInt8 := ws.flatMap (· ++ [0])

/-- Where the words start when the first one is laid at `b`. -/
def places : Nat → List (List UInt8) → List Nat
  | _, [] => []
  | b, w :: ws => b :: places (b + w.length + 1) ws

private theorem length_laid (ws : List (List UInt8)) : (laid ws).length = (ws.map fun w => w.length + 1).sum := by
  simp [laid, List.length_flatMap]

private theorem length_places (b : Nat) (ws : List (List UInt8)) : (places b ws).length = ws.length := by
  induction ws generalizing b with
  | nil => rfl
  | cons w ws ih => simp [places, ih]

/-- At its place stands the word with its terminator. -/
private theorem drop_places (front back : List UInt8) {ws : List (List UInt8)} {n : Nat} (hn : n < ws.length) :
    ∃ p rest, (places front.length ws)[n]? = some p ∧ (front ++ laid ws ++ back).drop p = ws[n] ++ 0 :: rest := by
  induction ws generalizing front n with
  | nil => simp at hn
  | cons w ws ih =>
    cases n with
    | zero =>
      refine ⟨front.length, laid ws ++ back, rfl, ?_⟩
      simp [laid]
    | succ n =>
      have hlen : (front ++ w ++ [0]).length = front.length + w.length + 1 := by simp [Nat.add_assoc]
      obtain ⟨p, rest, hp, hdrop⟩ := ih (front ++ w ++ [0]) (Nat.lt_of_succ_lt_succ hn)
      rw [hlen] at hp
      refine ⟨p, rest, by simpa [places] using hp, ?_⟩
      rw [List.getElem_cons_succ, ← hdrop]
      simp [laid]

/-- The loop from a word on, or from the end of the line: the words that are left, as many as the list has places for. -/
private theorem wordsLoop_eq (front back : List UInt8) (listed rest : Args) (hi : i ≤ s.length)
    (hstart : (s.drop i).dropWhile isspace = s.drop i) (hroom : (laid (words isspace (s.drop i))).length ≤ back.length)
    (hargs : listed.length + rest.length = maxArgs) (hlisted : listed.length < maxArgs) :
    ∃ taken, taken = (words isspace (s.drop i)).take (maxArgs - 1 - listed.length) ∧
      wordsLoop (s ++ 0 :: u) s.length listed.length front.length i (front ++ back) (listed ++ rest) =
        some (listed.length + taken.length, front ++ laid taken ++ back.drop (laid taken).length,
          listed ++ (places front.length taken).map some ++ rest.drop taken.length) := by
  obtain ⟨n, hn⟩ := Nat.exists_eq_add_of_lt hlisted
  induction n generalizing i front back listed rest with
  | zero =>
    refine ⟨[], ?_, ?_⟩
    · rw [show maxArgs - 1 - listed.length = 0 by omega, List.take_zero]
    · rw [wordsLoop, if_neg (by omega)]
      simp [laid, places]
  | succ n ih =>
    by_cases hlt : i < s.length
    · have hblank : isspace s[i] = false := by
        rw [List.drop_eq_getElem_cons hlt] at hstart
        by_contra hspace
        rw [List.dropWhile_cons_of_pos (by simpa using hspace)] at hstart
        have hlen := congrArg List.length hstart
        have hle := (List.dropWhile_suffix isspace (l := s.drop (i + 1))).length_le
        rw [List.length_cons] at hlen
        omega
      have hwords : words isspace (s.drop i) = ((s.drop i).takeWhile fun c => !isspace c) ::
          words isspace ((s.drop i).dropWhile fun c => !isspace c) := by
        rw [List.drop_eq_getElem_cons hlt]
        exact words_eq_cons hblank _
      rw [hwords, laid, List.flatMap_cons, List.length_append, List.length_append, List.length_singleton,
        ← laid] at hroom
      obtain ⟨word, hword, hnext, hle, hcopy⟩ := copyWord_eq (u := u) front back hi (by omega)
      rw [← hword] at hroom
      obtain ⟨j, hj, hskip, hdrop⟩ := skipSpace_eq (u := u) hle
      obtain ⟨a, rest, rfl⟩ := List.exists_cons_of_length_pos (by omega : 0 < rest.length)
      obtain ⟨b, back', hback⟩ := List.exists_cons_of_length_pos (by simp; omega : 0 < (back.drop word.length).length)
      have hback' : back' = back.drop (word.length + 1) := by
        rw [← List.drop_drop, hback]
        rfl
      have hj' : (s.drop j).dropWhile isspace = s.drop j := by
        rw [hdrop, List.dropWhile_idempotent]
      have hfront : (front ++ word ++ [0]).length = (front ++ word).length + 1 := by simp [Nat.add_assoc]
      have hlisted' : (listed ++ [some front.length]).length = listed.length + 1 := by simp
      have hwords' : words isspace (s.drop j) = words isspace ((s.drop i).dropWhile fun c => !isspace c) := by
        rw [hdrop, words_dropWhile, hnext]
      rw [← hwords'] at hroom hwords
      obtain ⟨taken, htaken, hloop⟩ := ih (i := j) (front ++ word ++ [0]) back' (listed ++ [some front.length]) rest
        hj hj' (by rw [hback', List.length_drop]; omega)
        (by simp at hargs ⊢; omega) (by simp at hn ⊢; omega) (by simp at hn ⊢; omega)
      rw [hfront, hlisted'] at hloop
      refine ⟨word :: taken, ?_, ?_⟩
      · rw [hwords, hword, show maxArgs - 1 - listed.length = (maxArgs - 1 - (listed.length + 1)) + 1 by omega,
          List.take_succ_cons, htaken, hlisted']
      · rw [wordsLoop, if_pos ⟨hlt, by omega⟩, store_append]
        simp only [Option.bind_eq_bind, Option.bind_some, hcopy, hback, store_append, hskip]
        rw [List.append_cons (front ++ word), List.append_cons listed, hloop]
        simp [laid, places, hback', List.length_append]
        omega
    · refine ⟨[], ?_, ?_⟩
      · rw [List.drop_eq_nil_of_le (by omega), words_nil, List.take_nil]
      · rw [wordsLoop, if_neg (by omega)]
        simp [laid, places]

/-- The words of a line: their number, at most one less than the list has places, each of them with its terminator at its
place, and `NULL` behind them.  No access is outside its object. -/
theorem parseInput_words {input argBuffer : List UInt8} {args : Args} (hterminated : 0 ∈ input)
    (hlen : (cstr input).length < maxInputLength) (hbuffer : argBuffer.length = maxInputLength)
    (hargs : args.length = maxArgs) :
    ∃ n argBuffer' args', parseInput input argBuffer args = some (n, argBuffer', args') ∧
      n = min (maxArgs - 1) (words isspace (cstr input)).length ∧
      (∀ i < n, ∃ p word rest, args'[i]? = some (some p) ∧ (words isspace (cstr input))[i]? = some word ∧
        argBuffer'.drop p = word ++ 0 :: rest) ∧
      args'[n]? = some none ∧ argBuffer'.length = maxInputLength ∧ args'.length = maxArgs := by
  have hstrlen := strlen_eq input
  rw [if_pos hterminated] at hstrlen
  obtain hall | ⟨u, hu⟩ := cstr_eq_or_append input
  · exact absurd rfl (noNul_cstr input 0 (hall.symm ▸ hterminated))
  generalize cstr input = s at hlen hstrlen hu ⊢
  subst hu
  obtain ⟨j, hj, hskip, hdrop⟩ := skipSpace_eq (s := s) (u := u) (Nat.zero_le s.length)
  have hwords : words isspace (s.drop j) = words isspace s := by rw [hdrop, words_dropWhile, List.drop_zero]
  have hroom : (laid (words isspace (s.drop j))).length ≤ argBuffer.length := by
    have hsum := sum_length_words (p := isspace) s
    rw [hwords, length_laid]
    omega
  obtain ⟨taken, htaken, hloop⟩ := wordsLoop_eq (u := u) [] argBuffer [] args
    hj (by rw [hdrop, List.dropWhile_idempotent]) hroom (by simpa using hargs) (by decide)
  rw [hwords] at htaken
  simp only [List.nil_append, List.length_nil, Nat.zero_add, Nat.sub_zero] at hloop htaken
  have hcount : taken.length = min (maxArgs - 1) (words isspace s).length := by rw [htaken, List.length_take]
  have hlast : taken.length < args.length := by
    rw [hcount, hargs]
    exact Nat.lt_of_le_of_lt (Nat.min_le_left _ _) (by decide)
  obtain ⟨a, rest, hrest⟩ := List.exists_cons_of_length_pos (by simpa using hlast : 0 < (args.drop taken.length).length)
  have hplaces : ((places 0 taken).map some).length = taken.length := by rw [List.length_map, length_places]
  have hstore := store_append ((places 0 taken).map some) rest a none
  rw [hplaces, ← hrest] at hstore
  have hlaid : (laid taken).length ≤ argBuffer.length := by
    refine Nat.le_trans ?_ hroom
    rw [hwords, length_laid, length_laid, htaken, List.map_take]
    exact (List.take_sublist _ _).sum_le_sum fun _ _ => Nat.zero_le _
  refine ⟨taken.length, laid taken ++ argBuffer.drop (laid taken).length, (places 0 taken).map some ++ none :: rest,
    ?_, hcount, ?_, ?_, ?_, ?_⟩
  · simp only [parseInput, hstrlen, hskip, hloop, hstore, Option.bind_eq_bind, Option.bind_some]
  · intro i hi
    obtain ⟨p, rest', hp, hdrop'⟩ := drop_places [] (argBuffer.drop (laid taken).length) hi
    refine ⟨p, taken[i], rest', ?_, ?_, ?_⟩
    · rw [List.getElem?_append_left (by rwa [hplaces]), List.getElem?_map]
      simpa using hp
    · rw [List.getElem_of_eq htaken]
      simp
    · simpa using hdrop'
  · rw [List.getElem?_append_right (by rw [hplaces]), hplaces, Nat.sub_self]
    rfl
  · simp only [List.length_append, List.length_drop]
    omega
  · have hdropped := congrArg List.length hrest
    rw [List.length_drop, List.length_cons] at hdropped
    rw [List.length_append, hplaces, List.length_cons]
    omega

end Scan

/-- The line `ls  a` has two words. -/
theorem parseInput_ls : ∃ argBuffer args, parseInput [0x6c, 0x73, 0x20, 0x20, 0x61, 0]
    (List.replicate maxInputLength 0) (List.replicate maxArgs none) = some (2, argBuffer, args) ∧
    args[2]? = some none := by
  have hcstr : cstr [0x6c, 0x73, 0x20, 0x20, 0x61, 0] = [0x6c, 0x73, 0x20, 0x20, 0x61] := by simp [cstr]
  have hterminated : (0 : UInt8) ∈ [0x6c, 0x73, 0x20, 0x20, 0x61, 0] := by simp
  have hbuffer : (List.replicate maxInputLength (0 : UInt8)).length = maxInputLength := List.length_replicate
  have hargs : (List.replicate maxArgs (none : Option Nat)).length = maxArgs := List.length_replicate
  obtain ⟨n, argBuffer, args, hparse, hn, -, hlast, -⟩ := parseInput_words hterminated (by rw [hcstr]; decide) hbuffer
    hargs
  have hwords : (words isspace [0x6c, 0x73, 0x20, 0x20, 0x61]).length = 2 := by decide
  rw [hcstr, hwords] at hn
  obtain rfl : n = 2 := hn
  exact ⟨argBuffer, args, hparse, hlast⟩

end DBolOS.Shell
