import DBolOS.CString

/-!
# What the string functions read and write

The loops of `strncmp`, `strncpy`, `strcpy` and `strrchr` test the byte behind the one they have handled.  `strncmp`
compares one byte too many when the bound is reached (`comparesBounded_iff`), and the three others step over the terminator
of an empty string; `strncpy` does not pad (`copies_iff`).
-/

namespace DBolOS

/-! ### Comparing -/

/-- The bytes that a comparison of `num` bytes is about: up to and including the first zero. -/
def compared (num : Nat) (a : List UInt8) : List UInt8 := a.take (min num ((cstr a).length + 1))

/-- The two sides differ first at index `i`, where they have `x` and `y`. -/
structure FirstDiffer (a b : List UInt8) (i : Nat) (x y : UInt8) : Prop where
  before : a.take i = b.take i
  left : a[i]? = some x
  right : b[i]? = some y
  ne : x ≠ y

/-- A bounded comparison looks at the first `num` bytes of both sides and not at the bytes `t` and `u` that follow, if there
are any.  It is zero exactly for sides that agree up to and including the first zero, and has the sign of the first bytes
that differ otherwise. -/
def ComparesBounded (num : Nat) (a b : List UInt8) : Prop :=
  ∃ r : Int, (∀ t u, strncmp num (a.take num ++ t) (b.take num ++ u) = some r) ∧
    (r = 0 ↔ compared num a = compared num b) ∧
    (r ≠ 0 → ∃ i x y, i < num ∧ FirstDiffer a b i x y ∧ NoNul (a.take i) ∧ r.sign = ((x.toNat : Int) - y.toNat).sign)

section Compare

variable {num : Nat} {a b s t u : List UInt8} {x y : UInt8}

/-- The loop stops at bytes that differ or at a terminator. -/
private theorem strncmp_of_stop (t u : List UInt8) (hs : NoNul s) (hlen : s.length < num) (hstop : x ≠ y ∨ x = 0) :
    strncmp num (s ++ x :: t) (s ++ y :: u) = some ((x.toNat : Int) - y.toNat) := by
  induction s generalizing num with
  | nil =>
    rw [List.nil_append, List.nil_append, strncmp, if_neg]
    rintro ⟨-, hx, hxy⟩
    exact hstop.elim (fun h => h hxy) hx
  | cons c s ih =>
    obtain ⟨hc, hs'⟩ := hs.of_cons
    rw [List.length_cons] at hlen
    rw [List.cons_append, List.cons_append, strncmp, if_pos ⟨by omega, hc, rfl⟩]
    exact ih hs' (by omega)

private theorem strncmp_self (hs : NoNul s) (hlen : s.length ≤ num) : strncmp num s s = none := by
  induction s generalizing num with
  | nil => rw [strncmp]; simp
  | cons c s ih =>
    obtain ⟨hc, hs'⟩ := hs.of_cons
    rw [List.length_cons] at hlen
    rw [strncmp, if_pos ⟨by omega, hc, rfl⟩]
    exact ih hs' (by omega)

/-- Two sides agree on `num` bytes without a terminator, or there is a place within them where the loop stops. -/
private theorem agree_or_stop (ha : 0 ∈ a ∨ num ≤ a.length) (hb : 0 ∈ b ∨ num ≤ b.length) :
    (a.take num = b.take num ∧ NoNul (a.take num)) ∨
      ∃ s x y t u, a = s ++ x :: t ∧ b = s ++ y :: u ∧ NoNul s ∧ s.length < num ∧ (x ≠ y ∨ x = 0) := by
  induction num generalizing a b with
  | zero => exact .inl ⟨by simp, by simp [NoNul]⟩
  | succ num ih =>
    obtain ⟨x, a, rfl⟩ : ∃ x t, a = x :: t := by
      cases a with
      | nil => simp at ha
      | cons x t => exact ⟨x, t, rfl⟩
    obtain ⟨y, b, rfl⟩ : ∃ y t, b = y :: t := by
      cases b with
      | nil => simp at hb
      | cons y t => exact ⟨y, t, rfl⟩
    by_cases hstop : x ≠ y ∨ x = 0
    · exact .inr ⟨[], x, y, a, b, rfl, rfl, by simp [NoNul], by simp, hstop⟩
    · rw [not_or, not_not] at hstop
      obtain ⟨rfl, hx⟩ := hstop
      have ha' : 0 ∈ a ∨ num ≤ a.length := by simpa [Ne.symm hx] using ha
      have hb' : 0 ∈ b ∨ num ≤ b.length := by simpa [Ne.symm hx] using hb
      rcases ih ha' hb' with ⟨htake, hnul⟩ | ⟨s, x', y', t, u, rfl, rfl, hs, hlen, hstop⟩
      · left
        rw [List.take_succ_cons, List.take_succ_cons, htake]
        refine ⟨rfl, ?_⟩
        rw [← htake]
        intro c hc
        rcases List.mem_cons.1 hc with rfl | hc
        · exact hx
        · exact hnul c hc
      · right
        refine ⟨x :: s, x', y', t, u, rfl, rfl, ?_, by simpa using hlen, hstop⟩
        intro c hc
        rcases List.mem_cons.1 hc with rfl | hc
        · exact hx
        · exact hs c hc

private theorem cstr_append {s : List UInt8} (hs : NoNul s) (t : List UInt8) : cstr (s ++ t) = s ++ cstr t := by
  rw [cstr, List.takeWhile_append_of_pos]
  · rfl
  · intro c hc
    simpa using hs c hc

/-- The byte where the loop stops belongs to the comparison. -/
private theorem getElem?_compared (hs : NoNul s) (hlen : s.length < num) (x : UInt8) (t : List UInt8) :
    (compared num (s ++ x :: t))[s.length]? = some x := by
  have hin : s.length < min num ((cstr (s ++ x :: t)).length + 1) := by
    rw [cstr_append hs, List.length_append]
    omega
  rw [compared, List.getElem?_take_of_lt hin, List.getElem?_append_right (le_refl _), Nat.sub_self]
  rfl

/-- A comparison that stops at a terminator is about the string before it. -/
private theorem compared_zero (hs : NoNul s) (hlen : s.length < num) (t : List UInt8) :
    compared num (s ++ 0 :: t) = s ++ [0] := by
  rw [compared, cstr_append_zero hs, Nat.min_eq_right (by omega : s.length + 1 ≤ num),
    List.take_length_add_append]
  rfl

private theorem take_of_stop (hlen : s.length < num) (x : UInt8) (t : List UInt8) :
    (s ++ x :: t).take num = s ++ x :: t.take (num - s.length - 1) := by
  obtain ⟨k, rfl⟩ : ∃ k, num = s.length + (k + 1) := ⟨num - s.length - 1, by omega⟩
  rw [List.take_length_add_append, List.take_succ_cons]
  congr 3
  omega

/-- Where the loop stops within the bound, the comparison is right. -/
private theorem comparesBounded_of_stop (t u : List UInt8) (hs : NoNul s) (hlen : s.length < num)
    (hstop : x ≠ y ∨ x = 0) :
    ComparesBounded num (s ++ x :: t) (s ++ y :: u) := by
  refine ⟨(x.toNat : Int) - y.toNat, ?_, ?_, ?_⟩
  · intro t' u'
    rw [take_of_stop hlen, take_of_stop hlen, List.append_assoc, List.append_assoc, List.cons_append, List.cons_append]
    exact strncmp_of_stop _ _ hs hlen hstop
  · rw [toNat_sub_eq_zero]
    constructor
    · rintro rfl
      obtain rfl : x = 0 := hstop.resolve_left fun h => h rfl
      rw [compared_zero hs hlen, compared_zero hs hlen]
    · intro h
      have hx := getElem?_compared hs hlen x t
      rw [h, getElem?_compared hs hlen y u] at hx
      exact (Option.some.inj hx).symm
  · intro hr
    refine ⟨s.length, x, y, hlen, ⟨?_, ?_, ?_, ?_⟩, ?_, rfl⟩
    · rw [List.take_left, List.take_left]
    · simp
    · simp
    · rintro rfl
      exact hr (Int.sub_self _)
    · rwa [List.take_left]

/-- A bounded comparison is right exactly when it stops within the bound: at bytes that differ or at a terminator. -/
theorem comparesBounded_iff (num : Nat) (a b : List UInt8) (ha : 0 ∈ a ∨ num ≤ a.length)
    (hb : 0 ∈ b ∨ num ≤ b.length) : ComparesBounded num a b ↔ a.take num ≠ b.take num ∨ 0 ∈ a.take num := by
  rcases agree_or_stop ha hb with ⟨htake, hnul⟩ | ⟨s, x, y, t, u, rfl, rfl, hs, hlen, hstop⟩
  · refine iff_of_false ?_ ?_
    · rintro ⟨r, hr, -⟩
      have hself := hr [] []
      rw [List.append_nil, List.append_nil, ← htake, strncmp_self hnul (List.length_take_le _ _)] at hself
      cases hself
    · rintro (hne | hzero)
      · exact hne htake
      · exact hnul 0 hzero rfl
  · refine iff_of_true (comparesBounded_of_stop t u hs hlen hstop) ?_
    rw [take_of_stop hlen, take_of_stop hlen]
    rcases hstop with hne | rfl
    · left
      intro heq
      have htail := List.append_cancel_left heq
      exact hne (List.cons.inj htail).1
    · right
      simp

end Compare

/-- The names `a` and `ab` within 11 bytes. -/
theorem comparesBounded_names : ComparesBounded 11 [0x61, 0, 0x20] [0x61, 0x62, 0, 0x10] :=
  (comparesBounded_iff 11 _ _ (.inl (by decide)) (.inl (by decide))).2 (.inr (by decide))

/-- Two names of 11 bytes that are equal, before the attributes of an archive and of a directory. -/
theorem not_comparesBounded : ∃ name : List UInt8, name.length = 11 ∧
    strncmp 11 (name ++ [0x20]) (name ++ [0x10]) = some 16 ∧ ¬ComparesBounded 11 (name ++ [0x20]) (name ++ [0x10]) := by
  refine ⟨List.replicate 11 0x61, rfl, by decide, ?_⟩
  rintro ⟨r, hr, hzero, -⟩
  have hself := hr [] []
  rw [show strncmp 11 _ _ = none by decide] at hself
  cases hself

/-! ### Copying -/

theorem strcpy_eq {s : List UInt8} (hs : NoNul s) (hne : s ≠ []) (t : List UInt8) :
    strcpy (s ++ 0 :: t) = some (s ++ [0]) := by
  induction s with
  | nil => exact absurd rfl hne
  | cons b s ih =>
    cases s with
    | nil => simp [strcpy]
    | cons c s =>
      have hc : c ≠ 0 := hs c (by simp)
      have hstep : strcpy (b :: c :: (s ++ 0 :: t)) = (b :: ·) <$> strcpy (c :: (s ++ 0 :: t)) := by
        rw [strcpy, if_neg hc]
      have htail := ih hs.of_cons.2 (by simp)
      rw [List.cons_append] at htail
      rw [List.cons_append, List.cons_append, hstep, htail]
      rfl

/-- A copy of the empty string holds it, whatever was read behind it. -/
theorem head_strcpy_zero {t b : List UInt8} (h : strcpy (0 :: t) = some b) : ∃ u, b = 0 :: u := by
  cases t with
  | nil => cases h
  | cons c t =>
    rw [strcpy] at h
    split at h
    · exact ⟨[0], (Option.some.inj h).symm⟩
    · rw [Option.map_eq_map, Option.map_eq_some_iff] at h
      obtain ⟨u, _, rfl⟩ := h
      exact ⟨u, rfl⟩

theorem strrchr_absent {c : UInt8} {s : List UInt8} (hs : NoNul s) (hne : s ≠ []) (hc : c ∉ s) (t : List UInt8)
    (i : Nat) (ret : Option Nat) : strrchr c (s ++ 0 :: t) i ret = some ret := by
  induction s generalizing i with
  | nil => exact absurd rfl hne
  | cons b s ih =>
    have hb : b ≠ c := fun h => hc (by simp [h])
    cases s with
    | nil => simp [strrchr, hb]
    | cons d s =>
      have hd : d ≠ 0 := hs d (by simp)
      have htail := ih hs.of_cons.2 (by simp) (fun h => hc (by simp [h])) (i + 1)
      simp only [List.cons_append] at htail ⊢
      rw [strrchr]
      simp only [if_neg hb, if_neg hd]
      exact htail

theorem strrchr_last {c : UInt8} {pre name : List UInt8} (hs : NoNul (pre ++ c :: name)) (hc : c ∉ name)
    (t : List UInt8) (i : Nat) (ret : Option Nat) :
    strrchr c (pre ++ c :: name ++ 0 :: t) i ret = some (some (i + pre.length)) := by
  induction pre generalizing i ret with
  | nil =>
    cases name with
    | nil => simp [strrchr]
    | cons d name =>
      have hd : d ≠ 0 := hs d (by simp)
      have htail := strrchr_absent (hs.mono (by simp)) (List.cons_ne_nil d name) hc t (i + 1) (some i)
      simp only [List.nil_append, List.cons_append] at htail ⊢
      rw [strrchr]
      simp only [↓reduceIte, if_neg hd]
      exact htail
  | cons b pre ih =>
    obtain ⟨d, s, hd⟩ : ∃ d s, pre ++ c :: name = d :: s := List.exists_cons_of_length_pos (by simp)
    have hd0 : d ≠ 0 := hs d (by rw [List.cons_append, hd]; simp)
    have htail := ih hs.of_cons.2 (i + 1) (if b = c then some i else ret)
    rw [hd] at htail
    simp only [List.cons_append] at htail ⊢
    rw [hd, List.cons_append, strrchr]
    simp only [if_neg hd0]
    rw [htail, List.length_cons, Nat.add_right_comm, Nat.add_assoc]

/-- A byte is not in a string, or there is a last one. -/
theorem lastIndex_cases (c : UInt8) (s : List UInt8) : c ∉ s ∨ ∃ pre name, s = pre ++ c :: name ∧ c ∉ name := by
  induction s with
  | nil => exact .inl (by simp)
  | cons b s ih =>
    rcases ih with hno | ⟨pre, name, rfl, hname⟩
    · by_cases hb : b = c
      · exact .inr ⟨[], s, by rw [hb]; rfl, hno⟩
      · exact .inl (by simp [hno, Ne.symm hb])
    · exact .inr ⟨b :: pre, name, rfl, hname⟩

/-! ### What the header promises -/

/-- `strncpy` stores the first `num` bytes of the string and zeros up to `num`, whatever follows the terminator, if anything
does. -/
def PadsCopy (num : Nat) (s : List UInt8) : Prop :=
  ∀ t, strncpy num (s ++ 0 :: t) = some (s.take num ++ List.replicate (num - s.length) 0)

/-- `strcpy` stores the string and its terminator. -/
def CopiesString (s : List UInt8) : Prop := ∀ t, strcpy (s ++ 0 :: t) = some (s ++ [0])

/-- The index of the last `c`. -/
def IsLastIndex (c : UInt8) (str : List UInt8) : Option Nat → Prop
  | none => c ∉ str
  | some i => str[i]? = some c ∧ c ∉ str.drop (i + 1)

/-- `strrchr` finds the last `c` among the bytes `str` of the string, which are those before its terminator or include
it. -/
def FindsLast (c : UInt8) (s str : List UInt8) : Prop :=
  ∃ r, (∀ t, strrchr c (s ++ 0 :: t) 0 none = some r) ∧ IsLastIndex c str r

section Copy

variable {num : Nat} {s : List UInt8} {c : UInt8}

/-- Within the string `strncpy` is right. -/
private theorem strncpy_take (hs : NoNul s) (hlen : num ≤ s.length) (t : List UInt8) :
    strncpy num (s ++ 0 :: t) = some (s.take num) := by
  cases num with
  | zero => rw [strncpy, List.take_zero]
  | succ num =>
    have htake : (s.take (num + 1)).length = num + 1 := List.length_take_of_le hlen
    have hne : s.take (num + 1) ≠ [] := List.ne_nil_of_length_pos (by omega)
    obtain ⟨x, rest, hrest⟩ : ∃ x rest, s.drop (num + 1) ++ 0 :: t = x :: rest :=
      List.exists_cons_of_length_pos (by simp)
    have hsplit : s ++ 0 :: t = s.take (num + 1) ++ x :: rest := by
      rw [← hrest, ← List.append_assoc, List.take_append_drop]
    rw [hsplit]
    exact strncpy_eq rest (hs.mono (List.take_subset _ _)) hne htake.le (.inl htake)

private theorem padsCopy_iff (hs : NoNul s) : PadsCopy num s ↔ num ≤ s.length := by
  constructor
  · intro h
    by_contra hlong
    rw [not_le] at hlong
    have hcopy := h []
    by_cases hnil : s = []
    · subst hnil
      obtain ⟨num, rfl⟩ := Nat.exists_eq_succ_of_ne_zero (Nat.ne_zero_of_lt hlong)
      cases hcopy
    · rw [strncpy_eq [] hs hnil hlong.le (.inr rfl)] at hcopy
      have hlength := congrArg List.length (Option.some.inj hcopy)
      rw [List.take_of_length_le hlong.le, List.length_append, List.length_replicate] at hlength
      omega
  · intro hlen t
    rw [strncpy_take hs hlen, Nat.sub_eq_zero_of_le hlen, List.replicate_zero, List.append_nil]

private theorem copiesString_iff (hs : NoNul s) : CopiesString s ↔ s ≠ [] := by
  constructor
  · rintro h rfl
    cases h []
  · exact fun hne t => strcpy_eq hs hne t

/-- On a string that is not empty `strrchr` finds the last `c` before the terminator. -/
private theorem exists_strrchr (c : UInt8) (hs : NoNul s) (hne : s ≠ []) :
    ∃ r, (∀ t, strrchr c (s ++ 0 :: t) 0 none = some r) ∧ IsLastIndex c s r := by
  rcases lastIndex_cases c s with hno | ⟨pre, name, rfl, hname⟩
  · exact ⟨none, fun t => strrchr_absent hs hne hno t 0 none, hno⟩
  · refine ⟨some pre.length, fun t => ?_, ?_, ?_⟩
    · rw [strrchr_last hs hname t 0 none, Nat.zero_add]
    · simp
    · rw [List.drop_length_add_append]
      exact hname

private theorem not_findsLast_nil (c : UInt8) (str : List UInt8) : ¬FindsLast c [] str := by
  rintro ⟨r, hr, -⟩
  cases hr []

private theorem findsLast_iff (hs : NoNul s) : FindsLast c s s ↔ s ≠ [] := by
  constructor
  · rintro h rfl
    exact not_findsLast_nil c [] h
  · exact fun hne => exists_strrchr c hs hne

private theorem findsLast_terminated_iff (hs : NoNul s) : FindsLast c s (s ++ [0]) ↔ s ≠ [] ∧ c ≠ 0 := by
  constructor
  · intro h
    have hne : s ≠ [] := by
      rintro rfl
      exact not_findsLast_nil c _ h
    refine ⟨hne, ?_⟩
    rintro rfl
    obtain ⟨r, hr, hlast⟩ := h
    have hno : (0 : UInt8) ∉ s := fun hmem => hs 0 hmem rfl
    have hnone := hr []
    rw [strrchr_absent hs hne hno [] 0 none] at hnone
    cases hnone
    exact hlast (by simp)
  · rintro ⟨hne, hc⟩
    obtain ⟨r, hr, hlast⟩ := exists_strrchr c hs hne
    refine ⟨r, hr, ?_⟩
    cases r with
    | none =>
      have hno : c ∉ s := hlast
      simp [IsLastIndex, hno, hc]
    | some i =>
      obtain ⟨hi, hdrop⟩ := hlast
      have hlt : i < s.length := (List.getElem?_eq_some_iff.1 hi).1
      refine ⟨?_, ?_⟩
      · rwa [List.getElem?_append_left hlt]
      · rw [List.drop_append_of_le_length hlt]
        simp [hdrop, hc]

end Copy

/-- A call of `strncpy` is right exactly when the string fills its count.  `strcpy` and `strrchr` are right on every string
but the empty one; if the terminator counts as a part of it, `strrchr` finds all bytes but that one. -/
theorem copies_iff (s : List UInt8) (num : Nat) (c : UInt8) (hs : NoNul s) :
    (PadsCopy num s ↔ num ≤ s.length) ∧ (CopiesString s ↔ s ≠ []) ∧ (FindsLast c s s ↔ s ≠ []) ∧
      (FindsLast c s (s ++ [0]) ↔ s ≠ [] ∧ c ≠ 0) :=
  ⟨padsCopy_iff hs, copiesString_iff hs, findsLast_iff hs, findsLast_terminated_iff hs⟩

/-- A slash in `/a/b`. -/
theorem copies_path : PadsCopy 4 [0x2f, 0x61, 0x2f, 0x62] ∧ CopiesString [0x2f, 0x61, 0x2f, 0x62] ∧
    FindsLast 0x2f [0x2f, 0x61, 0x2f, 0x62] [0x2f, 0x61, 0x2f, 0x62] := by
  obtain ⟨hpads, hcopies, hlast, -⟩ := copies_iff [0x2f, 0x61, 0x2f, 0x62] 4 0x2f (by simp [NoNul])
  exact ⟨hpads.2 (by decide), hcopies.2 (by decide), hlast.2 (by decide)⟩

/-- A name of one byte is not padded to 12, and the empty string is read past its terminator. -/
theorem not_copies : strncpy 12 [0x61, 0] = some [0x61] ∧ ¬PadsCopy 12 [0x61] ∧ strncpy 1 [0] = none ∧
    strcpy [0] = none ∧ ¬CopiesString [] ∧ strrchr 0x2f [0] 0 none = none ∧ ¬FindsLast 0x2f [] [] := by
  refine ⟨by decide, ?_, by decide, by decide, ?_, by decide, not_findsLast_nil _ _⟩
  · rw [padsCopy_iff (by simp [NoNul])]
    decide
  · rw [copiesString_iff (by simp [NoNul])]
    exact fun h => h rfl

end DBolOS
