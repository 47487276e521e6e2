import DBolOS.CString
import DBolOS.Lib.Numeral

/-!
# Printing numbers

`itoa` of the kernel's string library finds the digits of a number by repeated division, the least significant first, and
reverses them.  The remainder of a negative number is negative, and its digit is read in front of the table.  That happens
to the least number in decimal and to the addresses with the top bit set in hexadecimal (`roundTrips_iff`).
-/

namespace DBolOS.Itoa

open Numeral (digitsOf valueOf)

def zeroDigit : UInt8 := 0x30

def minus : UInt8 := 0x2d

/-- The characters of `digits`, without the terminator of the literal. -/
def digits : List UInt8 :=
  [0x30, 0x31, 0x32, 0x33, 0x34, 0x35, 0x36, 0x37, 0x38, 0x39, 0x41, 0x42, 0x43, 0x44, 0x45, 0x46]

/-- `digits[i]`; an index outside of the table is `none`. -/
def digitAt (i : Int32) : Option UInt8 := if 0 ≤ i then digits[i.toInt.toNat]? else none

/-- Size of `temp`. -/
def tempSize : Nat := 32

/-- The loop of divisions, with `room` bytes left behind the digits in `temp`. -/
def convert (base : Int32) : Nat → Int32 → List UInt8 → Option (List UInt8)
  | 0, _, _ => none
  | room + 1, value, temp => do
    let digit ← digitAt (value % base)
    let value := value / base
    if 0 < value then convert base room value (temp ++ [digit]) else some (temp ++ [digit])

/-- What `itoa` stores in the buffer.  The negation of the least number overflows and leaves it as it is. -/
def itoa (value base : Int32) : Option (List UInt8) := do
  let isNegative := base = 10 ∧ value < 0
  let temp ← convert base tempSize (if isNegative then -value else value) []
  let temp ←
    if isNegative then
      if temp.length < tempSize then some (temp ++ [minus]) else none
    else some temp
  some (temp.reverse ++ [0])

/-! ### What a numeral says -/

/-- The value of a digit in a base. -/
def digitValue (base : Nat) (c : UInt8) : Option Nat := (digits.idxOf? c).filter (· < base)

/-- The number that a numeral stands for; the decimal ones have a sign. -/
def parse (base : Int32) (s : List UInt8) : Option Int :=
  if base = 10 ∧ s.head? = some minus then (fun n : Nat => -(n : Int)) <$> valueOf (digitValue 10) 10 s.tail
  else (fun n : Nat => (n : Int)) <$> valueOf (digitValue base.toInt.toNat) base.toInt.toNat s

/-- The value of the 32 bits in a base: signed in decimal, unsigned in hexadecimal. -/
def meaning (value base : Int32) : Int := if base = 10 then value.toInt else value.toUInt32.toNat

/-- The number zero has the one digit, and every other one starts with another digit, behind its sign. -/
def Canonical (s : List UInt8) : Prop :=
  s = [zeroDigit] ∨ ∃ sign c t, s = sign ++ c :: t ∧ (sign = [] ∨ sign = [minus]) ∧ c ≠ zeroDigit ∧ c ≠ minus

/-- No numeral with a superfluous zero behind its sign. -/
example (t : List UInt8) : ¬Canonical (minus :: zeroDigit :: t) := by
  rintro (h | ⟨sign, c, t', h, rfl | rfl, hzero, hminus⟩)
  · simp at h
  · simp only [List.nil_append, List.cons.injEq] at h
    exact hminus h.1.symm
  · simp only [List.cons_append, List.nil_append, List.cons.injEq] at h
    exact hzero h.2.1.symm

/-- The string stored is the numeral of the value. -/
def RoundTrips (value base : Int32) : Prop :=
  ∃ s, itoa value base = some (s ++ [0]) ∧ NoNul s ∧ Canonical s ∧ parse base s = some (meaning value base)

/-! ### The digits -/

/-- The character of a digit. -/
def digitChar (d : Nat) : UInt8 := digits.getD d 0

section Digits

variable {base value : Int32} {b n d room : Nat}

private theorem digitValue_digitChar (hb : b ≤ 16) (hd : d < b) : digitValue b (digitChar d) = some d := by
  have hall : ∀ d < 16, digits.idxOf? (digitChar d) = some d := by decide
  rw [digitValue, hall d (by omega), Option.filter_some, if_pos (by simpa using hd)]

private theorem digitChar_facts (hd : d < 16) :
    digitChar d ≠ 0 ∧ digitChar d ≠ minus ∧ (digitChar d = zeroDigit → d = 0) := by
  have hall : ∀ d < 16, digitChar d ≠ 0 ∧ digitChar d ≠ minus ∧ (digitChar d = zeroDigit → d = 0) := by decide
  exact hall d hd

private theorem digitAt_of_lt {i : Int32} (hi : i.toInt = d) (hd : d < 16) : digitAt i = some (digitChar d) := by
  have hpos : 0 ≤ i := by
    rw [Int32.le_iff_toInt_le, hi]
    exact Int.natCast_nonneg d
  have hall : ∀ d < 16, digits[d]? = some (digitChar d) := by decide
  rw [digitAt, if_pos hpos, hi, Int.toNat_natCast, hall d hd]

/-- The loop on a number that is not negative finds its digits. -/
private theorem convert_spec (hbase : base.toInt = b) (hb : 1 < b) (hb16 : b ≤ 16) (hvalue : value.toInt = n)
    (hroom : (digitsOf b n).length ≤ room) (temp : List UInt8) :
    convert base room value temp = some (temp ++ (digitsOf b n).map digitChar) := by
  induction room generalizing value n temp with
  | zero =>
    rw [Nat.le_zero, List.length_eq_zero_iff] at hroom
    exact absurd hroom (Numeral.digitsOf_ne_nil b n)
  | succ room ih =>
    have hmod : (value % base).toInt = (n % b : Nat) := by
      rw [Int32.toInt_mod, hvalue, hbase, Int.ofNat_tmod]
    have hdiv : (value / base).toInt = (n / b : Nat) := by
      have hne : base ≠ -1 := by
        rintro rfl
        have hneg : (-1 : Int32).toInt = -1 := by decide
        omega
      rw [Int32.toInt_div_of_ne_right _ _ hne, hvalue, hbase, Int.ofNat_tdiv]
    have hdigit := digitAt_of_lt hmod (by have := Nat.mod_lt n (by omega : 0 < b); omega)
    have hpos : 0 < value / base ↔ n / b ≠ 0 := by
      rw [Int32.lt_iff_toInt_lt, hdiv, Int32.toInt_zero, Int.natCast_pos, Nat.pos_iff_ne_zero]
    rw [Numeral.digitsOf_step hb] at hroom ⊢
    rw [convert, hdigit, Option.bind_eq_bind, Option.bind_some]
    by_cases hend : n / b = 0
    · rw [if_neg (fun h => hpos.1 h hend), if_pos hend]
      rfl
    · rw [if_neg hend, List.length_cons] at hroom
      rw [if_pos (hpos.2 hend), if_neg hend, ih hdiv (by omega), List.append_assoc]
      rfl

/-- The numbers of 32 bits have at most 10 digits. -/
private theorem length_digits_le (hbase : base = 10 ∨ base = 16) (hbaseNat : base.toInt = b) (hn : n ≤ 2 ^ 31) :
    (digitsOf b n).length ≤ 10 := by
  rcases hbase with rfl | rfl
  · obtain rfl : b = 10 := by
      have hten : (10 : Int32).toInt = (10 : Nat) := by decide
      omega
    exact Numeral.length_digitsOf_le (by decide) (by decide) (hn.trans_lt (by decide))
  · obtain rfl : b = 16 := by
      have hsixteen : (16 : Int32).toInt = (16 : Nat) := by decide
      omega
    exact Numeral.length_digitsOf_le (by decide) (by decide) (hn.trans_lt (by decide))

private theorem noNul_digits (hb : 1 < b) (hb16 : b ≤ 16) : NoNul ((digitsOf b n).reverse.map digitChar) := by
  intro c hc
  obtain ⟨d, hd, rfl⟩ := List.mem_map.1 hc
  have hlt := Numeral.digitsOf_lt hb (List.mem_reverse.1 hd)
  exact (digitChar_facts (by omega)).1

/-- The digits of a number start with its first one: zero for the number zero only, and never the sign. -/
private theorem digits_head (hb : 1 < b) (hb16 : b ≤ 16) (n : Nat) :
    ∃ c t, (digitsOf b n).reverse.map digitChar = c :: t ∧
    c ≠ minus ∧ (c = zeroDigit → (digitsOf b n).reverse.map digitChar = [zeroDigit]) := by
  obtain ⟨d, ds, hds⟩ : ∃ d ds, (digitsOf b n).reverse = d :: ds :=
    List.exists_cons_of_ne_nil (by simpa using Numeral.digitsOf_ne_nil b n)
  have hd : d ∈ digitsOf b n := List.mem_reverse.1 (by simp [hds])
  have hlt := Numeral.digitsOf_lt hb hd
  obtain ⟨-, hminus, hzero⟩ := digitChar_facts (by omega : d < 16)
  refine ⟨digitChar d, ds.map digitChar, by rw [hds, List.map_cons], hminus, ?_⟩
  intro h
  have hlast : (digitsOf b n).getLast? = some 0 := by
    rw [← List.head?_reverse, hds, List.head?_cons, hzero h]
  rw [Numeral.getLast?_digitsOf hlast]
  rfl

end Digits

/-! ### The numerals of `itoa` -/

section

variable {base value : Int32} {b n : Nat}

private theorem itoa_nonneg (hbase : base = 10 ∨ base = 16) (hbaseNat : base.toInt = b) (hb : 1 < b) (hb16 : b ≤ 16)
    (hvalue : value.toInt = n) : itoa value base = some ((digitsOf b n).reverse.map digitChar ++ [0]) := by
  have hn : n ≤ 2 ^ 31 := by
    have := value.toInt_lt
    omega
  have hneg : ¬(base = 10 ∧ value < 0) := by
    rintro ⟨-, h⟩
    rw [Int32.lt_iff_toInt_lt, hvalue, Int32.toInt_zero] at h
    omega
  have hconvert := convert_spec hbaseNat hb hb16 hvalue
    ((length_digits_le hbase hbaseNat hn).trans (by decide : 10 ≤ tempSize)) []
  simp only [itoa, if_neg hneg, hconvert, Option.bind_eq_bind, Option.bind_some, List.nil_append, List.map_reverse]

/-- A negative number in decimal, unless it is its own negation. -/
private theorem itoa_negative (hvalue : value.toInt = -n) (hpos : 0 < n) (hmin : value ≠ Int32.minValue) :
    itoa value 10 = some (minus :: (digitsOf 10 n).reverse.map digitChar ++ [0]) := by
  have hten : (10 : Int32).toInt = (10 : Nat) := by decide
  have hneg : value < 0 := by
    rw [Int32.lt_iff_toInt_lt, hvalue, Int32.toInt_zero]
    omega
  have hlt : n < 2 ^ 31 := by
    have hle := value.le_toInt
    have hne : value.toInt ≠ Int32.minValue.toInt := fun h => hmin (Int32.toInt_inj.1 h)
    have hminValue : Int32.minValue.toInt = -2 ^ 31 := by decide
    omega
  have hnegation : (-value).toInt = n := by
    rw [Int32.toInt_neg, hvalue, Int.neg_neg, Int.bmod_eq_of_le (by omega) (by omega)]
  have hlength := length_digits_le (.inl rfl) hten hlt.le
  have hconvert := convert_spec hten (by decide) (by decide) hnegation (hlength.trans (by decide : 10 ≤ tempSize)) []
  have hroom : ((digitsOf 10 n).map digitChar).length < tempSize := by
    rw [List.length_map]
    exact hlength.trans_lt (by decide)
  rw [List.nil_append] at hconvert
  simp only [itoa, true_and, hneg, ↓reduceIte, hconvert, Option.bind_eq_bind, Option.bind_some, hroom,
    List.reverse_append, List.map_reverse]
  rfl

/-- A negative number in hexadecimal: its last digit is read in front of the table, unless it is zero and the only one. -/
private theorem itoa_hex_negative (hvalue : value < 0) :
    itoa value 16 = none ∨ itoa value 16 = some [zeroDigit, 0] := by
  have hsixteen : (16 : Int32).toInt = 16 := by decide
  rw [Int32.lt_iff_toInt_lt, Int32.toInt_zero] at hvalue
  obtain ⟨m, hm⟩ : ∃ m : Nat, value.toInt = -m := ⟨value.toInt.natAbs, by omega⟩
  have hmod : (value % 16).toInt = -(m % 16 : Nat) := by
    rw [Int32.toInt_mod, hsixteen, hm, Int.neg_tmod, Int.ofNat_tmod]
    rfl
  have hdiv : (value / 16).toInt = -(m / 16 : Nat) := by
    rw [Int32.toInt_div_of_ne_right _ _ (by decide), hsixteen, hm, Int.neg_tdiv, Int.ofNat_tdiv]
    rfl
  have hend : ¬0 < value / 16 := by
    rw [Int32.lt_iff_toInt_lt, hdiv, Int32.toInt_zero]
    omega
  have hnotTen : ¬((16 : Int32) = 10 ∧ value < 0) := by
    rintro ⟨h, -⟩
    exact absurd h (by decide)
  by_cases hzero : value % 16 = 0
  · right
    have hconvert : convert 16 tempSize value [] = some [zeroDigit] := by
      rw [tempSize, convert, hzero, show digitAt 0 = some zeroDigit by decide, Option.bind_eq_bind, Option.bind_some,
        if_neg hend]
      rfl
    simp only [itoa, if_neg hnotTen, hconvert, Option.bind_eq_bind, Option.bind_some]
    rfl
  · left
    have hbefore : ¬0 ≤ value % 16 := by
      have hne : (value % 16).toInt ≠ 0 := fun h => hzero (Int32.toInt_inj.1 h)
      rw [Int32.le_iff_toInt_le, Int32.toInt_zero]
      omega
    have hconvert : convert 16 tempSize value [] = none := by
      rw [tempSize, convert, digitAt, if_neg hbefore]
      rfl
    simp only [itoa, if_neg hnotTen, hconvert, Option.bind_eq_bind, Option.bind_none]

private theorem toNat_bits (value : Int32) :
    (value.toUInt32.toNat : Int) = if 0 ≤ value.toInt then value.toInt else value.toInt + 2 ^ 32 := by
  have hbits : value.toInt = value.toUInt32.toBitVec.toInt := rfl
  have hnat : value.toUInt32.toNat = value.toUInt32.toBitVec.toNat := rfl
  have hlt := value.toUInt32.toNat_lt
  rw [hbits, BitVec.toInt_eq_toNat_cond]
  split
  · rw [if_pos (by omega), hnat]
  · rw [if_neg (by omega)]
    omega

private theorem meaning_nonneg (hvalue : value.toInt = n) : meaning value base = n := by
  unfold meaning
  split
  · exact hvalue
  · rw [toNat_bits, hvalue, if_pos (Int.natCast_nonneg n)]

/-- The numeral of a number that is not negative. -/
private theorem roundTrips_nonneg (hbase : base = 10 ∨ base = 16) (hbaseNat : base.toInt = b) (hb : 1 < b)
    (hb16 : b ≤ 16)
    (hvalue : value.toInt = n) : RoundTrips value base := by
  obtain ⟨c, t, hdigits, hminus, hzero⟩ := digits_head hb hb16 n
  have hsign : ¬(base = 10 ∧ ((digitsOf b n).reverse.map digitChar).head? = some minus) := by
    rintro ⟨-, h⟩
    rw [hdigits] at h
    exact hminus (Option.some.inj h)
  refine ⟨_, itoa_nonneg hbase hbaseNat hb hb16 hvalue, noNul_digits hb hb16, ?_, ?_⟩
  · by_cases hc : c = zeroDigit
    · exact .inl (hzero hc)
    · exact .inr ⟨[], c, t, hdigits, .inl rfl, hc, hminus⟩
  · rw [parse, if_neg hsign, hbaseNat, Int.toNat_natCast, meaning_nonneg hvalue,
      Numeral.valueOf_digits hb fun d hd => digitValue_digitChar hb16 hd]
    rfl

private theorem roundTrips_negative (hvalue : value.toInt = -n) (hpos : 0 < n) (hmin : value ≠ Int32.minValue) :
    RoundTrips value 10 := by
  obtain ⟨c, t, hdigits, hminus, hzero⟩ := digits_head (b := 10) (by decide) (by decide) n
  refine ⟨_, itoa_negative hvalue hpos hmin, ?_, ?_, ?_⟩
  · intro d hd
    rcases List.mem_cons.1 hd with rfl | hd
    · decide
    · exact noNul_digits (by decide) (by decide) d hd
  · have hc : c ≠ zeroDigit := by
      intro h
      have hone : Numeral.valueOf (digitValue 10) 10 ((digitsOf 10 n).reverse.map digitChar) = some 0 := by
        rw [hzero h]
        decide
      rw [Numeral.valueOf_digits (by decide) fun d hd => digitValue_digitChar (by decide) hd] at hone
      have := Option.some.inj hone
      omega
    exact .inr ⟨[minus], c, t, by rw [hdigits]; rfl, .inr rfl, hc, hminus⟩
  · have hsign : (10 : Int32) = 10 ∧ (minus :: (digitsOf 10 n).reverse.map digitChar).head? = some minus := ⟨rfl, rfl⟩
    have hdigits := Numeral.valueOf_digits (by decide) (fun d hd => digitValue_digitChar (b := 10) (by decide) hd) n
    rw [parse, if_pos hsign, List.tail_cons, hdigits, meaning, if_pos rfl, hvalue]
    rfl

private theorem not_roundTrips_hex (hvalue : value < 0) : ¬RoundTrips value 16 := by
  rintro ⟨s, hs, -, -, hparse⟩
  rcases itoa_hex_negative hvalue with hnone | hzero
  · rw [hnone] at hs
    cases hs
  · rw [hzero, Option.some.injEq] at hs
    have hstored : [zeroDigit] ++ [0] = s ++ [0] := hs
    obtain rfl := List.append_cancel_right hstored
    rw [Int32.lt_iff_toInt_lt, Int32.toInt_zero] at hvalue
    have hmin := value.le_toInt
    have hbits := toNat_bits value
    rw [if_neg (by omega)] at hbits
    rw [show parse 16 [zeroDigit] = some 0 by decide, meaning, if_neg (by decide), hbits, Option.some.injEq] at hparse
    omega

private theorem not_roundTrips_least : ¬RoundTrips Int32.minValue 10 := by
  rintro ⟨s, hs, -⟩
  rw [show itoa Int32.minValue 10 = none by decide] at hs
  cases hs

end

private theorem length_stored (b n : Nat) :
    ((digitsOf b n).reverse.map digitChar ++ [0]).length = (digitsOf b n).length + 1 := by
  rw [List.length_append, List.length_map, List.length_reverse, List.length_singleton]

/-- What `itoa` stores fits the 32 bytes that `vga_printf` has for it. -/
theorem length_itoa_le {value base : Int32} {out : List UInt8} (hbase : base = 10 ∨ base = 16)
    (h : itoa value base = some out) : out.length ≤ 12 := by
  have hlt := value.toInt_lt
  have hle := value.le_toInt
  by_cases hpos : 0 ≤ value.toInt
  · have hvalue : value.toInt = (value.toInt.toNat : Nat) := by omega
    have hstored : ∀ b : Nat, base.toInt = b → 1 < b → b ≤ 16 → out.length ≤ 12 := by
      intro b hb hb1 hb16
      have hlen := length_digits_le hbase hb (by omega : value.toInt.toNat ≤ 2 ^ 31)
      rw [itoa_nonneg hbase hb hb1 hb16 hvalue] at h
      cases h
      rw [length_stored]
      omega
    rcases hbase with rfl | rfl
    · exact hstored 10 (by decide) (by decide) (by decide)
    · exact hstored 16 (by decide) (by decide) (by decide)
  · obtain ⟨n, hn⟩ : ∃ n : Nat, value.toInt = -n := ⟨value.toInt.natAbs, by omega⟩
    rcases hbase with rfl | rfl
    · by_cases hmin : value = Int32.minValue
      · rw [hmin, show itoa Int32.minValue 10 = none by decide] at h
        cases h
      · have hlen := length_digits_le (b := 10) (.inl rfl) (by decide) (by omega : n ≤ 2 ^ 31)
        rw [itoa_negative hn (by omega) hmin] at h
        cases h
        rw [List.cons_append, List.length_cons, length_stored]
        omega
    · have hneg : value < 0 := by
        rw [Int32.lt_iff_toInt_lt, Int32.toInt_zero]
        omega
      rcases itoa_hex_negative hneg with hnone | hzero
      · rw [hnone] at h
        cases h
      · rw [hzero] at h
        cases h
        decide

/-- `itoa` is right in decimal for all numbers but the least, and in hexadecimal for those whose top bit is clear. -/
theorem roundTrips_iff (value base : Int32) (hbase : base = 10 ∨ base = 16) :
    RoundTrips value base ↔ base = 10 ∧ value ≠ Int32.minValue ∨ base = 16 ∧ 0 ≤ value := by
  rcases hbase with rfl | rfl
  · constructor
    · intro h
      refine .inl ⟨rfl, ?_⟩
      rintro rfl
      exact not_roundTrips_least h
    · rintro (⟨-, hmin⟩ | ⟨h, -⟩)
      · by_cases hpos : 0 ≤ value.toInt
        · have hvalue : value.toInt = (value.toInt.toNat : Nat) := by omega
          exact roundTrips_nonneg (b := 10) (.inl rfl) (by decide) (by decide) (by decide) hvalue
        · have hvalue : value.toInt = -(value.toInt.natAbs : Nat) := by omega
          exact roundTrips_negative hvalue (by omega) hmin
      · exact absurd h (by decide)
  · constructor
    · intro h
      refine .inr ⟨rfl, ?_⟩
      by_contra hneg
      exact not_roundTrips_hex (Int32.not_le.1 hneg) h
    · rintro (⟨h, -⟩ | ⟨-, hpos⟩)
      · exact absurd h (by decide)
      · rw [Int32.le_iff_toInt_le, Int32.toInt_zero] at hpos
        have hvalue : value.toInt = (value.toInt.toNat : Nat) := by omega
        exact roundTrips_nonneg (b := 16) (.inr rfl) (by decide) (by decide) (by decide) hvalue

/-- `-42`, and `BEEF`. -/
theorem roundTrips_numbers : RoundTrips (-42) 10 ∧ RoundTrips 0xBEEF 16 :=
  ⟨(roundTrips_iff (-42) 10 (.inl rfl)).2 (.inl ⟨rfl, by decide⟩),
    (roundTrips_iff 0xBEEF 16 (.inr rfl)).2 (.inr ⟨rfl, by decide⟩)⟩

/-- The least number reads in front of the table in decimal, and so does the address `C010002C` in hexadecimal; `C0100000`
is printed as `0`. -/
theorem not_roundTrips : itoa Int32.minValue 10 = none ∧ ¬RoundTrips Int32.minValue 10 ∧
    itoa (0xC010002C : UInt32).toInt32 16 = none ∧ itoa (0xC0100000 : UInt32).toInt32 16 = some [0x30, 0] ∧
    ¬RoundTrips (0xC0100000 : UInt32).toInt32 16 :=
  ⟨by decide, not_roundTrips_least, by decide, by decide, not_roundTrips_hex (by decide)⟩

end DBolOS.Itoa
