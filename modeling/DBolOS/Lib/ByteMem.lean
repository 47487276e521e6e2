import Mathlib

/-!
# Byte-addressed memory

A memory is a total function from addresses to bytes.  `readBytes` and `writeBytes` move blocks of bytes, `splice`
overwrites part of a buffer, and `le16`, `le32` are the little-endian encodings of machine words.  Writing back a
block that was read and spliced is the write of the spliced part alone (`writeBytes_splice`), and a read sees a write
exactly where the two ranges meet (`readBytes_write_self`, `readBytes_write_disjoint`).
-/

abbrev ByteMem := Nat → UInt8

namespace ByteMem

def readBytes (m : ByteMem) (a n : Nat) : List UInt8 := (List.range n).map fun i => m (a + i)

def writeBytes (m : ByteMem) (a : Nat) (bs : List UInt8) : ByteMem := fun x =>
  if a ≤ x ∧ x < a + bs.length then bs.getD (x - a) 0 else m x

/-! ### Blocks -/

@[simp] theorem length_readBytes (m : ByteMem) (a n : Nat) : (readBytes m a n).length = n := by
  simp [readBytes]

theorem getElem?_readBytes (m : ByteMem) (a : Nat) {n i : Nat} (hi : i < n) :
    (readBytes m a n)[i]? = some (m (a + i)) := by
  simp [readBytes, hi]

theorem getD_readBytes (m : ByteMem) (a : Nat) {n i : Nat} (hi : i < n) (d : UInt8) :
    (readBytes m a n).getD i d = m (a + i) := by
  rw [List.getD_eq_getElem?_getD, getElem?_readBytes m a hi, Option.getD_some]

theorem readBytes_eq_iff {m m' : ByteMem} {a a' n : Nat} :
    readBytes m a n = readBytes m' a' n ↔ ∀ i < n, m (a + i) = m' (a' + i) := by
  unfold readBytes
  rw [List.map_inj_left]
  simp

theorem readBytes_congr {m m' : ByteMem} {a n : Nat} (h : ∀ x, a ≤ x → x < a + n → m x = m' x) :
    readBytes m a n = readBytes m' a n :=
  readBytes_eq_iff.2 fun i hi => h (a + i) (by omega) (by omega)

theorem readBytes_add (m : ByteMem) (a n k : Nat) :
    readBytes m a (n + k) = readBytes m a n ++ readBytes m (a + n) k := by
  unfold readBytes
  rw [List.range_add, List.map_append, List.map_map]
  congr 1
  apply List.map_congr_left
  intro i _
  simp [Nat.add_assoc]

theorem drop_readBytes (m : ByteMem) (a n k : Nat) : (readBytes m a n).drop k = readBytes m (a + k) (n - k) := by
  apply List.ext_getElem?
  intro i
  rw [List.getElem?_drop]
  by_cases hi : k + i < n
  · rw [getElem?_readBytes m a hi, getElem?_readBytes m (a + k) (by omega), Nat.add_assoc]
  · rw [List.getElem?_eq_none (by simpa using hi), List.getElem?_eq_none (by simp; omega)]

theorem take_readBytes (m : ByteMem) (a n k : Nat) : (readBytes m a n).take k = readBytes m a (min k n) := by
  apply List.ext_getElem?
  intro i
  by_cases hi : i < min k n
  · rw [List.getElem?_take_of_lt (by omega), getElem?_readBytes m a (by omega), getElem?_readBytes m a hi]
  · rw [List.getElem?_eq_none (by simp; omega), List.getElem?_eq_none (by simp; omega)]

/-! ### Writes -/

theorem writeBytes_inside (m : ByteMem) {a x : Nat} {bs : List UInt8} (h1 : a ≤ x) (h2 : x < a + bs.length) :
    writeBytes m a bs x = bs.getD (x - a) 0 := if_pos ⟨h1, h2⟩

theorem writeBytes_outside (m : ByteMem) {a x : Nat} {bs : List UInt8} (h : x < a ∨ a + bs.length ≤ x) :
    writeBytes m a bs x = m x := if_neg (by omega)

theorem readBytes_write_self (m : ByteMem) (a : Nat) (bs : List UInt8) :
    readBytes (writeBytes m a bs) a bs.length = bs := by
  apply List.ext_getElem?
  intro i
  by_cases hi : i < bs.length
  · rw [getElem?_readBytes _ _ hi, writeBytes_inside m (by omega) (by omega), Nat.add_sub_cancel_left,
      List.getD_eq_getElem?_getD, List.getElem?_eq_getElem hi, Option.getD_some]
  · rw [List.getElem?_eq_none (by simpa using hi), List.getElem?_eq_none (by simpa using hi)]

theorem readBytes_write_disjoint (m : ByteMem) {a b n : Nat} {bs : List UInt8}
    (h : b + n ≤ a ∨ a + bs.length ≤ b) : readBytes (writeBytes m a bs) b n = readBytes m b n :=
  readBytes_congr fun _ _ _ => writeBytes_outside m (by omega)

/-- Writing `bs ++ cs` is writing the two parts. -/
theorem writeBytes_append (m : ByteMem) (a : Nat) (bs cs : List UInt8) :
    writeBytes m a (bs ++ cs) = writeBytes (writeBytes m a bs) (a + bs.length) cs := by
  funext x
  simp only [writeBytes, List.length_append, List.getD_eq_getElem?_getD]
  by_cases h1 : x < a + bs.length
  · by_cases h2 : a ≤ x
    · have : ¬ (a + bs.length ≤ x ∧ x < a + bs.length + cs.length) := by omega
      simp only [this, ↓reduceIte, h1, h2, and_self, show x < a + (bs.length + cs.length) by omega]
      rw [List.getElem?_append_left (by omega)]
    · have h3 : ¬ (a + bs.length ≤ x ∧ x < a + bs.length + cs.length) := by omega
      have h4 : ¬ (a ≤ x ∧ x < a + (bs.length + cs.length)) := by omega
      have h5 : ¬ (a ≤ x ∧ x < a + bs.length) := by omega
      simp only [h3, h4, h5, ↓reduceIte]
  · by_cases h2 : x < a + (bs.length + cs.length)
    · have h3 : a + bs.length ≤ x ∧ x < a + bs.length + cs.length := by omega
      simp only [h3, and_self, ↓reduceIte, h2, show a ≤ x by omega]
      rw [List.getElem?_append_right (by omega), show x - a - bs.length = x - (a + bs.length) by omega]
    · have h3 : ¬ (a + bs.length ≤ x ∧ x < a + bs.length + cs.length) := by omega
      have h4 : ¬ (a ≤ x ∧ x < a + (bs.length + cs.length)) := by omega
      have h5 : ¬ (a ≤ x ∧ x < a + bs.length) := by omega
      simp only [h3, h4, h5, ↓reduceIte]

theorem writeBytes_readBytes (m : ByteMem) (a n : Nat) : writeBytes m a (readBytes m a n) = m := by
  funext x
  by_cases h : a ≤ x ∧ x < a + n
  · rw [writeBytes_inside m h.1 (by simpa using h.2), getD_readBytes m a (by omega)]
    congr 1
    omega
  · exact writeBytes_outside m (by simp; omega)

/-! ### Buffers -/

/-- The buffer `l` with its bytes from `k` on overwritten by `bs`. -/
def splice (l : List UInt8) (k : Nat) (bs : List UInt8) : List UInt8 := l.take k ++ bs ++ l.drop (k + bs.length)

theorem length_splice {l bs : List UInt8} {k : Nat} (h : k + bs.length ≤ l.length) :
    (splice l k bs).length = l.length := by
  simp [splice]
  omega

@[simp] theorem splice_nil (l : List UInt8) (k : Nat) : splice l k [] = l := by
  simp [splice]

theorem getElem?_splice {l bs : List UInt8} {k : Nat} (h : k + bs.length ≤ l.length) (i : Nat) :
    (splice l k bs)[i]? = if k ≤ i ∧ i < k + bs.length then bs[i - k]? else l[i]? := by
  have hk : (l.take k).length = k := by
    rw [List.length_take]
    omega
  rw [splice, List.append_assoc]
  rcases Nat.lt_or_ge i k with hlt | hge
  · rw [if_neg (by omega), List.getElem?_append_left (by rw [hk]; exact hlt), List.getElem?_take_of_lt hlt]
  rw [List.getElem?_append_right (by rw [hk]; exact hge), hk]
  rcases Nat.lt_or_ge i (k + bs.length) with hin | hout
  · rw [if_pos ⟨hge, hin⟩, List.getElem?_append_left (by omega)]
  · rw [if_neg (by omega), List.getElem?_append_right (by omega), List.getElem?_drop]
    congr 1
    omega

/-- The part of a spliced buffer that was overwritten. -/
theorem take_drop_splice {l bs : List UInt8} {k : Nat} (h : k ≤ l.length) :
    ((splice l k bs).drop k).take bs.length = bs := by
  have hk : (l.take k).length = k := by
    rw [List.length_take]
    omega
  rw [splice, List.append_assoc, List.drop_left' hk, List.take_left' rfl]

theorem splice_append_right (l₁ l₂ bs : List UInt8) (k : Nat) :
    splice (l₁ ++ l₂) (l₁.length + k) bs = l₁ ++ splice l₂ k bs := by
  unfold splice
  rw [List.take_length_add_append, Nat.add_assoc, List.drop_length_add_append, List.append_assoc, List.append_assoc,
    List.append_assoc]

/-- A splice across the border of two buffers is one splice in each. -/
theorem splice_append {l₁ l₂ bs : List UInt8} {k : Nat} (h : k ≤ l₁.length) :
    splice (l₁ ++ l₂) k bs =
      splice l₁ k (bs.take (l₁.length - k)) ++ splice l₂ 0 (bs.drop (l₁.length - k)) := by
  unfold splice
  rw [List.take_append_of_le_length h, List.drop_append, List.length_take, List.length_drop, List.take_zero,
    List.nil_append, Nat.zero_add]
  rcases Nat.lt_or_ge bs.length (l₁.length - k) with hlt | hge
  · rw [List.take_of_length_le hlt.le, List.drop_eq_nil_of_le hlt.le, Nat.min_eq_right hlt.le,
      Nat.sub_eq_zero_of_le (by omega), Nat.sub_eq_zero_of_le hlt.le]
    simp
  · have hnone : l₁.drop (k + bs.length) = [] := List.drop_eq_nil_of_le (by omega)
    have hnone' : l₁.drop (k + (l₁.length - k)) = [] := List.drop_eq_nil_of_le (by omega)
    have hrest : k + bs.length - l₁.length = bs.length - (l₁.length - k) := by omega
    rw [Nat.min_eq_left hge, hnone, hnone', hrest, List.nil_append, List.append_nil, List.append_assoc,
      List.append_assoc, ← List.append_assoc (bs.take _), List.take_append_drop]

/-- Read a block, overwrite a part of it, write it back: only the part changes. -/
theorem writeBytes_splice (m : ByteMem) (a : Nat) {n k : Nat} {bs : List UInt8} (h : k + bs.length ≤ n) :
    writeBytes m a (splice (readBytes m a n) k bs) = writeBytes m (a + k) bs := by
  have hk : ((readBytes m a n).take k).length = k := by simp; omega
  have e1 : writeBytes m a ((readBytes m a n).take k) = m := by
    rw [take_readBytes, writeBytes_readBytes]
  rw [splice, writeBytes_append, writeBytes_append, e1, List.length_append, hk, drop_readBytes, ← Nat.add_assoc]
  have e2 : readBytes m (a + k + bs.length) (n - (k + bs.length)) =
      readBytes (writeBytes m (a + k) bs) (a + k + bs.length) (n - (k + bs.length)) :=
    (readBytes_write_disjoint m (.inr (le_refl _))).symm
  rw [e2, writeBytes_readBytes]

/-! ### Words -/

def le16 (x : UInt16) : List UInt8 := [UInt8.ofNat x.toNat, UInt8.ofNat (x.toNat / 2 ^ 8)]

def ofLe16 (b0 b1 : UInt8) : UInt16 := UInt16.ofNat (b0.toNat + 2 ^ 8 * b1.toNat)

def le32 (x : UInt32) : List UInt8 :=
  [UInt8.ofNat x.toNat, UInt8.ofNat (x.toNat / 2 ^ 8), UInt8.ofNat (x.toNat / 2 ^ 16), UInt8.ofNat (x.toNat / 2 ^ 24)]

def ofLe32 (b0 b1 b2 b3 : UInt8) : UInt32 :=
  UInt32.ofNat (b0.toNat + 2 ^ 8 * b1.toNat + 2 ^ 16 * b2.toNat + 2 ^ 24 * b3.toNat)

@[simp] theorem length_le16 (x : UInt16) : (le16 x).length = 2 := rfl

@[simp] theorem length_le32 (x : UInt32) : (le32 x).length = 4 := rfl

theorem ofLe16_le16 (x : UInt16) : ofLe16 (UInt8.ofNat x.toNat) (UInt8.ofNat (x.toNat / 2 ^ 8)) = x := by
  apply UInt16.toNat_inj.1
  have := x.toNat_lt
  simp only [ofLe16, UInt16.toNat_ofNat', UInt8.toNat_ofNat']
  omega

theorem le16_ofLe16 (b0 b1 : UInt8) : le16 (ofLe16 b0 b1) = [b0, b1] := by
  have h0 := b0.toNat_lt
  have h1 := b1.toNat_lt
  simp only [le16, ofLe16, UInt16.toNat_ofNat', List.cons.injEq, and_true]
  constructor <;> apply UInt8.toNat_inj.1 <;> simp only [UInt8.toNat_ofNat'] <;> omega

/-- The words of a block, in memory order. -/
def words16 : List UInt8 → List UInt16
  | b0 :: b1 :: bs => ofLe16 b0 b1 :: words16 bs
  | _ => []

theorem words16_flatMap_le16 (xs : List UInt16) : words16 (xs.flatMap le16) = xs := by
  induction xs with
  | nil => rfl
  | cons x xs ih =>
    rw [List.flatMap_cons]
    exact congrArg₂ List.cons (ofLe16_le16 x) ih

theorem flatMap_le16_words16 : ∀ bs : List UInt8, bs.length % 2 = 0 → (words16 bs).flatMap le16 = bs
  | [], _ => rfl
  | [_], h => by simp at h
  | b0 :: b1 :: bs, h => by
    have htail : bs.length % 2 = 0 := by
      simp only [List.length_cons] at h
      omega
    rw [words16, List.flatMap_cons, flatMap_le16_words16 bs htail, le16_ofLe16]
    rfl

@[simp] theorem length_flatMap_le16 (xs : List UInt16) : (xs.flatMap le16).length = 2 * xs.length := by
  simp [List.length_flatMap, Nat.mul_comm]

theorem take_flatMap_le16 (xs : List UInt16) (n : Nat) : (xs.flatMap le16).take (2 * n) = (xs.take n).flatMap le16 := by
  induction xs generalizing n with
  | nil => simp
  | cons x xs ih =>
    cases n with
    | zero => simp
    | succ n => simpa [le16, Nat.mul_succ] using ih n

theorem drop_flatMap_le16 (xs : List UInt16) (n : Nat) : (xs.flatMap le16).drop (2 * n) = (xs.drop n).flatMap le16 := by
  induction xs generalizing n with
  | nil => simp
  | cons x xs ih =>
    cases n with
    | zero => simp
    | succ n => simpa [le16, Nat.mul_succ] using ih n

theorem flatMap_le16_inj {xs ys : List UInt16} (h : xs.flatMap le16 = ys.flatMap le16) : xs = ys := by
  rw [← words16_flatMap_le16 xs, h, words16_flatMap_le16]

/-- A block of words in memory follows a change of the words `p .. p + n` when these are written back. -/
theorem readBytes_write_words {m : ByteMem} {a p n : Nat} {xs ys : List UInt16} (hlen : ys.length = xs.length)
    (hpn : p + n ≤ xs.length) (htake : ys.take p = xs.take p) (hdrop : ys.drop (p + n) = xs.drop (p + n))
    (h : readBytes m a (2 * xs.length) = xs.flatMap le16) :
    readBytes (writeBytes m (a + 2 * p) (((ys.drop p).take n).flatMap le16)) a (2 * xs.length) = ys.flatMap le16 := by
  have hmid : (((ys.drop p).take n).flatMap le16).length = 2 * n := by
    rw [length_flatMap_le16, List.length_take, List.length_drop]
    omega
  have hsplit : 2 * xs.length = 2 * p + 2 * n + 2 * (xs.length - (p + n)) := by omega
  generalize hbs : ((ys.drop p).take n).flatMap le16 = bs at hmid
  have hfirst : readBytes (writeBytes m (a + 2 * p) bs) a (2 * p) = (ys.take p).flatMap le16 := by
    rw [readBytes_write_disjoint m (.inl (le_refl _)), htake, ← take_flatMap_le16, ← h, take_readBytes,
      Nat.min_eq_left (by omega)]
  have hself : readBytes (writeBytes m (a + 2 * p) bs) (a + 2 * p) (2 * n) = ((ys.drop p).take n).flatMap le16 := by
    rw [hbs, ← hmid, readBytes_write_self]
  have hlast : readBytes (writeBytes m (a + 2 * p) bs) (a + (2 * p + 2 * n)) (2 * (xs.length - (p + n))) =
      (ys.drop (p + n)).flatMap le16 := by
    rw [readBytes_write_disjoint m (.inr (by omega)), hdrop, ← drop_flatMap_le16, ← h, drop_readBytes, Nat.mul_add]
    congr 1
    omega
  rw [hsplit, readBytes_add, readBytes_add, hfirst, hself, hlast, ← List.flatMap_append, ← List.flatMap_append,
    List.append_assoc, ← List.drop_drop, List.take_append_drop, List.take_append_drop]

theorem length_words16 : ∀ bs : List UInt8, (words16 bs).length = bs.length / 2
  | [] => rfl
  | [_] => by simp [words16]
  | b0 :: b1 :: bs => by
    simp only [words16, List.length_cons, length_words16 bs]
    omega

theorem ofLe32_le32 (x : UInt32) : ofLe32 (UInt8.ofNat x.toNat) (UInt8.ofNat (x.toNat / 2 ^ 8))
    (UInt8.ofNat (x.toNat / 2 ^ 16)) (UInt8.ofNat (x.toNat / 2 ^ 24)) = x := by
  apply UInt32.toNat_inj.1
  have := x.toNat_lt
  simp only [ofLe32, UInt32.toNat_ofNat', UInt8.toNat_ofNat']
  omega

theorem le32_ofLe32 (b0 b1 b2 b3 : UInt8) : le32 (ofLe32 b0 b1 b2 b3) = [b0, b1, b2, b3] := by
  have h0 := b0.toNat_lt
  have h1 := b1.toNat_lt
  have h2 := b2.toNat_lt
  have h3 := b3.toNat_lt
  simp only [le32, ofLe32, UInt32.toNat_ofNat', List.cons.injEq, and_true]
  refine ⟨?_, ?_, ?_, ?_⟩ <;> apply UInt8.toNat_inj.1 <;> simp only [UInt8.toNat_ofNat'] <;> omega

/-! ### Words in memory -/

def read32 (m : ByteMem) (a : Nat) : UInt32 := ofLe32 (m a) (m (a + 1)) (m (a + 2)) (m (a + 3))

def write32 (m : ByteMem) (a : Nat) (x : UInt32) : ByteMem := writeBytes m a (le32 x)

@[simp] theorem read32_write32 (m : ByteMem) (a : Nat) (x : UInt32) : read32 (write32 m a x) a = x := by
  conv_rhs => rw [← ofLe32_le32 x]
  unfold read32 write32
  rw [writeBytes_inside m (by omega) (by simp), writeBytes_inside m (by omega) (by simp),
    writeBytes_inside m (by omega) (by simp), writeBytes_inside m (by omega) (by simp)]
  simp [le32]

theorem read32_congr {m m' : ByteMem} {a : Nat} (h : ∀ x, a ≤ x → x < a + 4 → m' x = m x) :
    read32 m' a = read32 m a := by
  unfold read32
  rw [h a (by omega) (by omega), h (a + 1) (by omega) (by omega), h (a + 2) (by omega) (by omega),
    h (a + 3) (by omega) (by omega)]

theorem write32_outside (m : ByteMem) {a x : Nat} {w : UInt32} (h : x < a ∨ a + 4 ≤ x) : write32 m a w x = m x :=
  writeBytes_outside m h

end ByteMem
