import DBolOS.Lib.ByteMem

/-!
# The kernel's string functions

`lib/src/string` on memory given as the list of bytes from the pointer to the end of its object.  A read past the end
of the object is `none`.
-/

namespace DBolOS

def strcmp : List UInt8 → List UInt8 → Option Int
  | a :: s, b :: t => if a ≠ 0 ∧ a = b then strcmp s t else some (a.toNat - b.toNat)
  | _, _ => none

/-- The byte after the first `num` ones is compared too when those agree and hold no terminator. -/
def strncmp : Nat → List UInt8 → List UInt8 → Option Int
  | num, a :: s, b :: t => if num ≠ 0 ∧ a ≠ 0 ∧ a = b then strncmp (num - 1) s t else some (a.toNat - b.toNat)
  | _, _, _ => none

def strlen : List UInt8 → Option Nat
  | [] => none
  | a :: s => if a = 0 then some 0 else (· + 1) <$> strlen s

/-- The bytes `strcpy` stores.  The loop tests the byte after the one it copied, so an empty source is read past its
terminator. -/
def strcpy : List UInt8 → Option (List UInt8)
  | a :: b :: t => if b = 0 then some [a, 0] else (a :: ·) <$> strcpy (b :: t)
  | _ => none

/-- The bytes `strncpy` stores: no padding, and at least one byte when `num` is not zero.  The byte behind the last one
copied is read before the count is tested. -/
def strncpy : Nat → List UInt8 → Option (List UInt8)
  | 0, _ => some []
  | num + 1, a :: b :: t => if b ≠ 0 ∧ num ≠ 0 then (a :: ·) <$> strncpy num (b :: t) else some [a]
  | _ + 1, _ => none

/-- Index of the last `c`, with `i` the index of the head and `ret` the last one found before it. -/
def strrchr (c : UInt8) : List UInt8 → Nat → Option Nat → Option (Option Nat)
  | a :: b :: t, i, ret =>
    let ret := if a = c then some i else ret
    if b = 0 then some ret else strrchr c (b :: t) (i + 1) ret
  | _, _, _ => none

def isalnum (c : UInt8) : Bool :=
  (0x61 ≤ c && c ≤ 0x7a) || (0x41 ≤ c && c ≤ 0x5a) || (0x30 ≤ c && c ≤ 0x39)

/-- The string of a buffer: its bytes before the first terminator. -/
def cstr (buf : List UInt8) : List UInt8 := buf.takeWhile (· ≠ 0)

/-! ### Strings -/

/-- A string of non-zero bytes. -/
def NoNul (s : List UInt8) : Prop := ∀ b ∈ s, b ≠ 0

instance (s : List UInt8) : Decidable (NoNul s) := inferInstanceAs (Decidable (∀ b ∈ s, b ≠ 0))

theorem NoNul.of_cons {b : UInt8} {s : List UInt8} (h : NoNul (b :: s)) : b ≠ 0 ∧ NoNul s :=
  ⟨h b (by simp), fun c hc => h c (by simp [hc])⟩

theorem NoNul.mono {s t : List UInt8} (h : NoNul t) (hst : s ⊆ t) : NoNul s := fun b hb => h b (hst hb)

theorem noNul_cstr (buf : List UInt8) : NoNul (cstr buf) := by
  intro b hb
  simpa using List.mem_takeWhile_imp hb

theorem cstr_append_zero {s : List UInt8} (h : NoNul s) (t : List UInt8) : cstr (s ++ 0 :: t) = s := by
  induction s with
  | nil => simp [cstr]
  | cons b s ih =>
    obtain ⟨hb, hs⟩ := h.of_cons
    rw [List.cons_append, cstr, List.takeWhile_cons_of_pos (by simpa using hb)]
    exact congrArg (b :: ·) (ih hs)

theorem cstr_of_noNul {s : List UInt8} (h : NoNul s) : cstr s = s := by
  rw [cstr, List.takeWhile_eq_self_iff]
  intro b hb
  simpa using h b hb

/-- The string of a part of a buffer is a part of its string. -/
theorem cstr_take (buf : List UInt8) (n : Nat) : cstr (buf.take n) = (cstr buf).take n := by
  induction buf generalizing n with
  | nil => simp [cstr]
  | cons b buf ih =>
    cases n with
    | zero => simp [cstr]
    | succ n =>
      by_cases hb : b = 0
      · simp [cstr, hb]
      · simpa [cstr, hb] using ih n

/-- A buffer is its string alone, or continues with the terminator. -/
theorem cstr_eq_or_append (buf : List UInt8) : cstr buf = buf ∨ ∃ u, buf = cstr buf ++ 0 :: u := by
  induction buf with
  | nil => exact .inl rfl
  | cons b buf ih =>
    by_cases hb : b = 0
    · exact .inr ⟨buf, by simp [cstr, hb]⟩
    · have hcons : cstr (b :: buf) = b :: cstr buf := by simp [cstr, hb]
      rw [hcons]
      rcases ih with h | ⟨u, h⟩
      · exact .inl (by rw [h])
      · exact .inr ⟨u, by rw [List.cons_append, ← h]⟩

theorem length_cstr_lt {buf : List UInt8} (h : 0 ∈ buf) : (cstr buf).length < buf.length := by
  rcases cstr_eq_or_append buf with hall | ⟨u, hu⟩
  · exact absurd rfl (noNul_cstr buf 0 (hall.symm ▸ h))
  · have hlen := congrArg List.length hu
    rw [List.length_append, List.length_cons] at hlen
    omega

theorem strlen_eq (buf : List UInt8) : strlen buf = if 0 ∈ buf then some (cstr buf).length else none := by
  induction buf with
  | nil => rfl
  | cons a s ih =>
    by_cases ha : a = 0
    · simp [strlen, cstr, ha]
    · rw [strlen, if_neg ha, ih]
      by_cases hs : 0 ∈ s
      · simp [cstr, ha, hs]
      · simp [hs, Ne.symm ha]

theorem toNat_sub_eq_zero {a b : UInt8} : (a.toNat : Int) - b.toNat = 0 ↔ a = b := by
  rw [← UInt8.toNat_inj]
  omega

/-- `strncmp` against a string and the byte `x` at which the comparison stops, the one behind the bound or a zero: both
stand at the head of the other side. -/
theorem strncmp_eq_zero_iff_of_stop {num : Nat} {a s : List UInt8} {x : UInt8} (t : List UInt8) (hs : NoNul s)
    (hnum : s.length ≤ num) (hx : s.length = num ∨ x = 0) (ha : s.length < a.length) :
    ∃ r, strncmp num a (s ++ x :: t) = some r ∧ (r = 0 ↔ ∃ u, a = s ++ x :: u) := by
  induction s generalizing num a with
  | nil =>
    obtain ⟨y, a, rfl⟩ := List.exists_cons_of_length_pos ha
    have hstop : strncmp num (y :: a) (x :: t) = some ((y.toNat : Int) - x.toNat) := by
      rw [strncmp, if_neg]
      rintro ⟨hnum, hy, rfl⟩
      rcases hx with h | h
      · exact hnum h.symm
      · exact hy h
    refine ⟨_, hstop, ?_⟩
    rw [toNat_sub_eq_zero]
    simp
  | cons b s ih =>
    obtain ⟨hb, hs'⟩ := hs.of_cons
    obtain ⟨y, a, rfl⟩ := List.exists_cons_of_length_pos (by simp at ha; omega : 0 < a.length)
    simp only [List.length_cons] at hnum ha hx
    by_cases hy : y = b
    · subst hy
      have htail : s.length ≤ num - 1 := by omega
      have hx' : s.length = num - 1 ∨ x = 0 := hx.imp_left fun h => by omega
      obtain ⟨r, hr, hiff⟩ := ih hs' htail hx' (Nat.lt_of_succ_lt_succ ha)
      refine ⟨r, ?_, ?_⟩
      · rw [List.cons_append, strncmp, if_pos ⟨by omega, hb, rfl⟩, hr]
      · rw [hiff]
        simp
    · refine ⟨(y.toNat : Int) - b.toNat, ?_, ?_⟩
      · rw [List.cons_append, strncmp, if_neg (fun h => hy h.2.2)]
      · rw [toNat_sub_eq_zero]
        simp [hy]

/-- `strncmp` against a string within the bound: the string stands at the head of the other side, before a zero. -/
theorem strncmp_eq_zero_iff {num : Nat} {a s : List UInt8} (t : List UInt8) (hs : NoNul s) (hnum : s.length ≤ num)
    (ha : s.length < a.length) :
    ∃ r, strncmp num a (s ++ 0 :: t) = some r ∧ (r = 0 ↔ ∃ u, a = s ++ 0 :: u) :=
  strncmp_eq_zero_iff_of_stop t hs hnum (.inr rfl) ha

/-- Against a string within the bound `strcmp` and `strncmp` compare the same bytes. -/
theorem strcmp_eq_strncmp {num : Nat} {s : List UInt8} (a t : List UInt8) (hs : NoNul s) (hnum : s.length ≤ num) :
    strcmp a (s ++ 0 :: t) = strncmp num a (s ++ 0 :: t) := by
  induction s generalizing num a with
  | nil =>
    cases a with
    | nil => rfl
    | cons x a =>
      rw [List.nil_append, strcmp, strncmp, if_neg, if_neg]
      · rintro ⟨_, hx, h0⟩
        exact hx h0
      · rintro ⟨hx, h0⟩
        exact hx h0
  | cons b s ih =>
    obtain ⟨hb, hs'⟩ := hs.of_cons
    cases a with
    | nil => rfl
    | cons x a =>
      rw [List.length_cons] at hnum
      rw [List.cons_append, strcmp, strncmp, ih a hs' (by omega : s.length ≤ num - 1)]
      have hpos : num ≠ 0 := by omega
      simp only [hpos, ne_eq, not_false_eq_true, true_and]

/-- `strncpy` of a string that ends at the bound or before it. -/
theorem strncpy_eq {num : Nat} {s : List UInt8} {x : UInt8} (t : List UInt8) (hs : NoNul s) (hne : s ≠ [])
    (hnum : s.length ≤ num) (hx : s.length = num ∨ x = 0) : strncpy num (s ++ x :: t) = some s := by
  induction s generalizing num with
  | nil => exact absurd rfl hne
  | cons a s ih =>
    obtain ⟨-, hs'⟩ := hs.of_cons
    rw [List.length_cons] at hnum hx
    obtain ⟨num, rfl⟩ := Nat.exists_eq_succ_of_ne_zero (by omega : num ≠ 0)
    rw [Nat.succ_eq_add_one] at hnum hx ⊢
    cases s with
    | nil =>
      rw [List.singleton_append, strncpy, if_neg]
      rintro ⟨hxne, hnumne⟩
      rcases hx with h | h
      · rw [List.length_nil] at h
        omega
      · exact hxne h
    | cons b s =>
      have htail := ih hs' (List.cons_ne_nil b s) (by omega : (b :: s).length ≤ num) (hx.imp_left fun h => by omega)
      rw [List.length_cons] at hnum
      rw [List.cons_append] at htail
      rw [List.cons_append, List.cons_append, strncpy, if_pos ⟨hs'.of_cons.1, by omega⟩, htail]
      rfl

/-- `strcmp` of two objects of one size, which has a result unless they are equal and hold no terminator. -/
theorem strcmp_eq_zero_iff {a b : List UInt8} (hlen : a.length = b.length) (hne : a ≠ b ∨ 0 ∈ a) :
    ∃ r, strcmp a b = some r ∧ (r = 0 ↔ cstr a = cstr b) := by
  induction a generalizing b with
  | nil =>
    rw [List.length_nil, eq_comm, List.length_eq_zero_iff] at hlen
    subst hlen
    simp at hne
  | cons x a ih =>
    obtain ⟨y, b, rfl⟩ := List.exists_cons_of_length_pos (by rw [← hlen]; simp : 0 < b.length)
    by_cases hxy : x ≠ 0 ∧ x = y
    · obtain ⟨hx, rfl⟩ := hxy
      obtain ⟨r, hr, hiff⟩ := ih (by simpa using hlen) (by simpa [Ne.symm hx] using hne)
      refine ⟨r, by rw [strcmp, if_pos ⟨hx, rfl⟩, hr], ?_⟩
      rw [hiff]
      simp [cstr, hx]
    · refine ⟨_, by rw [strcmp, if_neg hxy], ?_⟩
      rw [toNat_sub_eq_zero]
      constructor
      · rintro rfl
        have hx : x = 0 := by
          by_contra hx
          exact hxy ⟨hx, rfl⟩
        simp [cstr, hx]
      · intro h
        by_contra hne
        by_cases hx : x = 0 <;> by_cases hy : y = 0 <;> simp [cstr, hx, hy] at h
        · exact hne (hx.trans hy.symm)
        · exact hne h.1

end DBolOS
