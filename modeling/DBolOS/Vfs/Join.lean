import DBolOS.Vfs.Paths
import DBolOS.Strings

/-!
# Joining paths in memory

`join_path` of `dir.c` on the memory of the kernel, with every store of its loops.  From a directory that starts with a
slash it leaves in the buffer the string that `joinPath` says (`joinPathAt_joinPath`), which leads from the directory along
the path, and nothing outside of the buffer changes (`joinPathAt_joins`).
-/

namespace DBolOS.Vfs

open ByteMem
open Fat (slash dot)

/-! ### The code -/

/-- The bytes from the pointer to the end of memory. -/
def bytesAt (m : ByteMem) (p : Nat) : List UInt8 := m.readBytes p (2 ^ 32 - p)

/-- A sum and a difference of `size_t`. -/
def sizeAdd (a b : Nat) : Nat := (a + b) % 2 ^ 32

def sizeSub (a b : Nat) : Nat := (a + 2 ^ 32 - b) % 2 ^ 32

/-- The loop of `strncpy`. -/
def strncpyAt (m : ByteMem) (destination source : Nat) : Nat → ByteMem
  | 0 => m
  | num + 1 =>
    let m := m.writeBytes destination [m source]
    if m (source + 1) ≠ 0 ∧ num ≠ 0 then strncpyAt m (destination + 1) (source + 1) num else m

/-- Removal of the `/.` at the end of the `totalLen` bytes.  The test that `totalLen - 2` is not negative always holds. -/
def cutDot (m : ByteMem) (fullPath totalLen : Nat) : ByteMem :=
  if m (sizeAdd fullPath (sizeSub totalLen 1)) = dot ∧ m (sizeAdd fullPath (sizeSub totalLen 2)) = slash then
    (m.writeBytes (sizeAdd fullPath (sizeSub totalLen 2)) [0]).writeBytes (sizeAdd fullPath (sizeSub totalLen 1)) [0]
  else m

/-- `join_path`; `none` when the memory from a pointer on holds no terminator. -/
def joinPathAt (m : ByteMem) (cwd pathname fullPath size : Nat) : Option ByteMem := do
  let cwdLen ← strlen (bytesAt m cwd)
  let pathLen ← strlen (bytesAt m pathname)
  let totalLen := sizeAdd (sizeAdd cwdLen pathLen) 2
  if size < totalLen then some (m.writeBytes fullPath [0])
  else
    let m := m.writeBytes fullPath (List.replicate size 0)
    if m pathname = slash then some (strncpyAt m fullPath pathname (sizeAdd pathLen 1))
    else
      let m := strncpyAt m fullPath cwd cwdLen
      let last := m (sizeAdd fullPath (sizeSub cwdLen 1))
      let m := if last ≠ slash then m.writeBytes (sizeAdd fullPath cwdLen) [slash] else m
      let cwdLen := if last ≠ slash then cwdLen else sizeSub cwdLen 1
      let m := strncpyAt m (sizeAdd (sizeAdd fullPath cwdLen) 1) pathname (sizeAdd pathLen 1)
      let m := cutDot m fullPath (sizeAdd (sizeAdd cwdLen pathLen) 1)
      some (if m fullPath = 0 then m.writeBytes fullPath [slash] else m)

/-! ### Strings and buffers in memory -/

/-- The string `s` with its terminator at an address. -/
structure StringAt (m : ByteMem) (p : Nat) (s : List UInt8) : Prop where
  noNul : NoNul s
  bytes : m.readBytes p (s.length + 1) = s ++ [0]
  fits : p + s.length + 1 ≤ 2 ^ 32

/-- The ranges of `n` bytes at `a` and of `k` bytes at `b` do not meet. -/
def Apart (a n b k : Nat) : Prop := a + n ≤ b ∨ b + k ≤ a

/-- A buffer of `size` bytes that holds `s` and zeros behind it. -/
def padded (s : List UInt8) (size : Nat) : List UInt8 := s ++ List.replicate (size - s.length) 0

section Memory

variable {m : ByteMem} {p a k num size dst src : Nat} {s t bs : List UInt8}

private theorem sizeAdd_eq {a b : Nat} (h : a + b < 2 ^ 32) : sizeAdd a b = a + b := Nat.mod_eq_of_lt h

private theorem sizeSub_eq {a b : Nat} (hb : b ≤ a) (ha : a < 2 ^ 32) : sizeSub a b = a - b := by
  unfold sizeSub
  omega

private theorem StringAt.strlen (h : StringAt m p s) : strlen (bytesAt m p) = some s.length := by
  obtain ⟨k, hk⟩ : ∃ k, 2 ^ 32 - p = s.length + 1 + k := ⟨2 ^ 32 - p - (s.length + 1), by have := h.fits; omega⟩
  have hbytes : bytesAt m p = s ++ 0 :: m.readBytes (p + (s.length + 1)) k := by
    rw [bytesAt, hk, readBytes_add, h.bytes, List.append_assoc, List.singleton_append]
  rw [hbytes, strlen_eq, cstr_append_zero h.noNul, if_pos (by simp)]

/-- A string is not changed by a store next to it. -/
private theorem StringAt.write (h : StringAt m p s) (hapart : Apart p (s.length + 1) a bs.length) :
    StringAt (m.writeBytes a bs) p s := by
  refine ⟨h.noNul, ?_, h.fits⟩
  rw [readBytes_write_disjoint m hapart, h.bytes]

private theorem StringAt.get (h : StringAt m p s) {i : Nat} (hi : i ≤ s.length) :
    (s ++ [0])[i]? = some (m (p + i)) := by
  rw [← h.bytes, getElem?_readBytes m p (Nat.lt_succ_of_le hi)]

private theorem length_padded (h : s.length ≤ size) : (padded s size).length = size := by
  rw [padded, List.length_append, List.length_replicate]
  omega

private theorem writeBytes_inner (m : ByteMem) (a : Nat) {k : Nat} (hk : k + bs.length ≤ t.length) :
    (m.writeBytes a t).writeBytes (a + k) bs = m.writeBytes a (splice t k bs) := by
  have hread : readBytes (m.writeBytes a t) a t.length = t := readBytes_write_self m a t
  rw [← writeBytes_splice _ a hk, hread]
  funext x
  have hlen := length_splice hk
  by_cases hx : a ≤ x ∧ x < a + t.length
  · rw [writeBytes_inside _ hx.1 (by omega), writeBytes_inside _ hx.1 (by omega)]
  · rw [writeBytes_outside _ (by omega), writeBytes_outside _ (by omega), writeBytes_outside _ (by omega)]

private theorem splice_padded (s t : List UInt8) (size : Nat) :
    splice (padded s size) s.length t = padded (s ++ t) size := by
  have hsplit := splice_append_right s (List.replicate (size - s.length) 0) t 0
  rw [Nat.add_zero] at hsplit
  rw [padded, hsplit, padded, splice, List.take_zero, List.nil_append, List.drop_replicate, List.append_assoc,
    List.length_append, Nat.zero_add, Nat.sub_sub]

private theorem write_padded (m : ByteMem) (a : Nat) (h : s.length + t.length ≤ size) :
    (m.writeBytes a (padded s size)).writeBytes (a + s.length) t = m.writeBytes a (padded (s ++ t) size) := by
  rw [writeBytes_inner m a (by rw [length_padded (by omega)]; exact h), splice_padded]

private theorem padded_zero (h : s.length < size) : padded (s ++ [0]) size = padded s size := by
  rw [padded, padded, List.append_assoc, List.length_append, List.length_singleton]
  obtain ⟨k, hk⟩ : ∃ k, size - s.length = k + 1 := ⟨size - s.length - 1, by omega⟩
  rw [hk, show size - (s.length + 1) = k by omega, List.replicate_succ, List.singleton_append]

private theorem get_padded (m : ByteMem) (a : Nat) (h : s.length ≤ size) {i : Nat} {b : UInt8} (hi : s[i]? = some b) :
    m.writeBytes a (padded s size) (a + i) = b := by
  have hlt : i < s.length := (List.getElem?_eq_some_iff.1 hi).1
  rw [writeBytes_inside m (Nat.le_add_right a i) (by rw [length_padded h]; omega), Nat.add_sub_cancel_left,
    List.getD_eq_getElem?_getD, padded, List.getElem?_append_left hlt, hi, Option.getD_some]

private theorem get_padded_zero (m : ByteMem) (a : Nat) (h : s.length < size) :
    m.writeBytes a (padded s size) (a + s.length) = 0 := by
  rw [← padded_zero h]
  exact get_padded m a (by rw [List.length_append, List.length_singleton]; exact h) (by simp)

/-- Zeros over the end of the string of a padded buffer. -/
private theorem write_zeros (m : ByteMem) (a : Nat) (s t : List UInt8) (h : s.length + t.length ≤ size) :
    (m.writeBytes a (padded (s ++ t) size)).writeBytes (a + s.length) (List.replicate t.length 0) =
      m.writeBytes a (padded s size) := by
  have hlen : (s ++ t).length = s.length + t.length := List.length_append
  have hsplice : splice (padded (s ++ t) size) s.length (List.replicate t.length 0) = padded s size := by
    have hsplit := splice_append_right s (t ++ List.replicate (size - (s ++ t).length) 0) (List.replicate t.length 0) 0
    rw [Nat.add_zero, ← List.append_assoc] at hsplit
    rw [padded, hsplit, padded, splice, List.take_zero, List.nil_append, List.length_replicate, Nat.zero_add,
      List.drop_left, ← List.replicate_add]
    congr 2
    omega
  rw [writeBytes_inner m a (by rw [length_padded (by omega), List.length_replicate]; exact h), hsplice]

private theorem stringAt_padded (m : ByteMem) (hs : NoNul s) (hlen : s.length < size) (ha : a + size ≤ 2 ^ 32) :
    StringAt (m.writeBytes a (padded s size)) a s := by
  refine ⟨hs, ?_, by omega⟩
  have hread := readBytes_write_self m a (padded s size)
  rw [length_padded hlen.le] at hread
  have htake := take_readBytes (m.writeBytes a (padded s size)) a size (s.length + 1)
  rw [hread, Nat.min_eq_left hlen] at htake
  obtain ⟨k, hk⟩ : ∃ k, size - s.length = k + 1 := ⟨size - s.length - 1, by omega⟩
  rw [← htake, padded, hk, List.take_length_add_append, List.replicate_succ, List.take_succ_cons, List.take_zero]

/-- The loop of `strncpy` stores what the list of the bytes at the source says, if it does not overwrite them. -/
private theorem strncpyAt_eq (hapart : Apart dst num src k) (h : strncpy num (m.readBytes src k) = some bs) :
    strncpyAt m dst src num = m.writeBytes dst bs := by
  unfold Apart at hapart
  induction num generalizing m dst src k bs with
  | zero =>
    cases h
    funext x
    exact (writeBytes_outside m (by rw [List.length_nil]; omega)).symm
  | succ num ih =>
    obtain ⟨k, rfl⟩ : ∃ k', k = k' + 2 := by
      match k, h with
      | k + 2, _ => exact ⟨k, rfl⟩
    have hread : m.readBytes src (k + 2) = m src :: m (src + 1) :: m.readBytes (src + 2) k := by
      rw [Nat.add_comm k 2, readBytes_add]
      rfl
    have hnext : m.writeBytes dst [m src] (src + 1) = m (src + 1) :=
      writeBytes_outside m (by rw [List.length_singleton]; omega)
    rw [hread, strncpy] at h
    rw [strncpyAt, hnext]
    by_cases hgo : m (src + 1) ≠ 0 ∧ num ≠ 0
    · rw [if_pos hgo, Option.map_eq_map, Option.map_eq_some_iff] at h
      obtain ⟨rest, hrest, rfl⟩ := h
      have hsource : (m.writeBytes dst [m src]).readBytes (src + 1) (k + 1) = m (src + 1) :: m.readBytes (src + 2) k := by
        rw [readBytes_write_disjoint m (by rw [List.length_singleton]; omega), Nat.add_comm k 1, readBytes_add]
        rfl
      have hapart' : dst + 1 + num ≤ src + 1 ∨ src + 1 + (k + 1) ≤ dst + 1 := by omega
      have htail := ih hapart' (hsource.symm ▸ hrest)
      rw [if_pos hgo, htail]
      exact (writeBytes_append m dst [m src] rest).symm
    · rw [if_neg hgo] at h
      cases h
      rw [if_neg hgo]

/-- `strncpy` of a string up to its terminator, or up to a count that it fills. -/
private theorem StringAt.strncpyAt (h : StringAt m src s) (hne : s ≠ []) (hnum : s.length = num ∨ s.length + 1 = num)
    (hapart : Apart dst num src (s.length + 1)) : strncpyAt m dst src num = m.writeBytes dst s := by
  refine strncpyAt_eq hapart ?_
  rw [h.bytes]
  exact strncpy_eq [] h.noNul hne (by omega) (.inr rfl)

end Memory

/-! ### What is left in the buffer -/

/-- The working directory with a slash behind it. -/
def withSlash (cwd : List UInt8) : List UInt8 := if cwd.getLast? = some slash then cwd else cwd ++ [slash]

/-- A path without the `/.` at its end. -/
def withoutDot (path : List UInt8) : List UInt8 :=
  if [slash, dot].isSuffixOf path then path.dropLast.dropLast else path

/-- The directory and a relative path joined. -/
def joined (cwd pathname : List UInt8) : List UInt8 :=
  if withoutDot (withSlash cwd ++ pathname) = [] then [slash] else withoutDot (withSlash cwd ++ pathname)

/-- The path that `join_path` leaves when there is room for it. -/
def joinedPath (cwd pathname : List UInt8) : List UInt8 :=
  if pathname.head? = some slash then pathname else joined cwd pathname

private theorem joinPath_eq {cwd : List UInt8} (hne : cwd ≠ []) (pathname : List UInt8) :
    joinPath cwd pathname =
      some (if pathSize < cwd.length + pathname.length + 2 then [] else joinedPath cwd pathname) := by
  unfold joinPath
  rw [if_neg hne, joinedPath]
  split
  · rfl
  · split <;> rfl

/-- What the caller of `join_path` hands over: two strings and a buffer, apart from one another in 32 bits of memory. -/
structure Arguments (m : ByteMem) (cwd pathname fullPath size : Nat) (c p : List UInt8) : Prop where
  atCwd : StringAt m cwd c
  atPath : StringAt m pathname p
  pos : 1 ≤ size
  buffer : fullPath + size ≤ 2 ^ 32
  strings : Apart cwd (c.length + 1) pathname (p.length + 1)
  cwdApart : Apart cwd (c.length + 1) fullPath size
  pathApart : Apart pathname (p.length + 1) fullPath size

section Join

variable {m : ByteMem} {cwd pathname fullPath size : Nat} {c p s : List UInt8}

private theorem Arguments.sizes (h : Arguments m cwd pathname fullPath size c p) :
    c.length + p.length + 2 < 2 ^ 32 := by
  have hcwd := h.atCwd.fits
  have hpath := h.atPath.fits
  have hpos := h.pos
  have hbuffer := h.buffer
  have hstrings := h.strings
  have hcwdApart := h.cwdApart
  have hpathApart := h.pathApart
  unfold Apart at hstrings hcwdApart hpathApart
  omega

/-- The removal of `/.` on a buffer that holds a string other than the one dot. -/
private theorem cutDot_spec (hne : s ≠ []) (hdot : s ≠ [dot]) (hlen : s.length ≤ size)
    (hbuffer : fullPath + size ≤ 2 ^ 32)
    (hsize : s.length < 2 ^ 32) : cutDot (m.writeBytes fullPath (padded s size)) fullPath s.length =
      m.writeBytes fullPath (padded (withoutDot s) size) := by
  obtain ⟨u, x, rfl⟩ : ∃ u x, s = u ++ [x] := ⟨_, _, (List.dropLast_append_getLast hne).symm⟩
  have hlength : (u ++ [x]).length = u.length + 1 := by rw [List.length_append, List.length_singleton]
  have hlast : m.writeBytes fullPath (padded (u ++ [x]) size) (fullPath + u.length) = x :=
    get_padded m fullPath hlen (by simp)
  have hsub : sizeAdd fullPath (sizeSub (u ++ [x]).length 1) = fullPath + u.length := by
    rw [sizeSub_eq (by omega) hsize, hlength, Nat.add_sub_cancel]
    exact sizeAdd_eq (by omega)
  rw [cutDot, hsub, hlast, withoutDot]
  by_cases hx : x = dot
  · subst hx
    have hu : u ≠ [] := fun hu => hdot (by rw [hu]; rfl)
    obtain ⟨u, y, rfl⟩ : ∃ v y, u = v ++ [y] := ⟨_, _, (List.dropLast_append_getLast hu).symm⟩
    have hlength' : (u ++ [y]).length = u.length + 1 := by rw [List.length_append, List.length_singleton]
    have hget : m.writeBytes fullPath (padded (u ++ [y] ++ [dot]) size) (fullPath + u.length) = y :=
      get_padded m fullPath hlen (by simp)
    have hsub' : sizeAdd fullPath (sizeSub (u ++ [y] ++ [dot]).length 2) = fullPath + u.length := by
      rw [sizeSub_eq (by omega) hsize, hlength, hlength']
      exact sizeAdd_eq (by omega)
    have hends : u ++ [y] ++ [dot] = u ++ [y, dot] := by rw [List.append_assoc]; rfl
    rw [hsub', hget]
    by_cases hy : y = slash
    · subst hy
      have hsuffix : [slash, dot].isSuffixOf (u ++ [slash] ++ [dot]) = true := by
        rw [List.isSuffixOf_iff_suffix]
        exact ⟨u, hends.symm⟩
      have hroom : u.length + [slash, dot].length ≤ size := by
        rwa [hends, List.length_append] at hlen
      have hzeros := write_zeros m fullPath u [slash, dot] hroom
      rw [if_pos ⟨rfl, rfl⟩, if_pos hsuffix, List.dropLast_concat, List.dropLast_concat, hends, hlength', ← Nat.add_assoc]
      exact (writeBytes_append _ (fullPath + u.length) [0] [0]).symm.trans hzeros
    · rw [if_neg (fun h => hy h.2), if_neg]
      intro hsuffix
      obtain ⟨v, hv⟩ := List.isSuffixOf_iff_suffix.1 hsuffix
      rw [hends] at hv
      exact hy (List.cons.inj (List.append_inj' hv rfl).2).1.symm
  · rw [if_neg (fun h => hx h.1), if_neg]
    intro hsuffix
    obtain ⟨v, hv⟩ := List.isSuffixOf_iff_suffix.1 hsuffix
    have hends := congrArg List.getLast? hv
    rw [List.getLast?_concat, List.getLast?_append_of_ne_nil _ (by simp)] at hends
    exact hx (Option.some.inj hends).symm

private theorem withSlash_getLast? (c : List UInt8) : (withSlash c).getLast? = some slash := by
  unfold withSlash
  split
  · assumption
  · exact List.getLast?_concat

private theorem withoutDot_isPrefix (path : List UInt8) : withoutDot path <+: path := by
  unfold withoutDot
  split
  · exact (List.dropLast_prefix _).trans (List.dropLast_prefix _)
  · exact List.prefix_rfl

private theorem length_withSlash_le (c : List UInt8) : (withSlash c).length ≤ c.length + 1 := by
  unfold withSlash
  split
  · exact Nat.le_succ _
  · rw [List.length_append, List.length_singleton]

private theorem noNul_withSlash (hc : NoNul c) : NoNul (withSlash c) := by
  unfold withSlash
  split
  · exact hc
  · intro b hb
    rcases List.mem_append.1 hb with hb | hb
    · exact hc b hb
    · rw [List.mem_singleton.1 hb]
      decide

/-- The slash behind the working directory, and the length that leaves room for it. -/
private theorem storeSlash_spec (hne : c ≠ []) (hlen : c.length + 2 ≤ size) (hbuffer : fullPath + size ≤ 2 ^ 32) :
    let last := m.writeBytes fullPath (padded c size) (sizeAdd fullPath (sizeSub c.length 1))
    (if last ≠ slash then (m.writeBytes fullPath (padded c size)).writeBytes (sizeAdd fullPath c.length) [slash]
      else m.writeBytes fullPath (padded c size)) = m.writeBytes fullPath (padded (withSlash c) size) ∧
      (if last ≠ slash then c.length else sizeSub c.length 1) + 1 = (withSlash c).length := by
  obtain ⟨u, x, rfl⟩ : ∃ u x, c = u ++ [x] := ⟨_, _, (List.dropLast_append_getLast hne).symm⟩
  have hlength : (u ++ [x]).length = u.length + 1 := by rw [List.length_append, List.length_singleton]
  have hsub : sizeSub (u ++ [x]).length 1 = u.length := by
    rw [sizeSub_eq (by omega) (by omega), hlength, Nat.add_sub_cancel]
  have hlast : m.writeBytes fullPath (padded (u ++ [x]) size) (fullPath + u.length) = x :=
    get_padded m fullPath (by omega) (by simp)
  dsimp only
  rw [hsub, sizeAdd_eq (by omega : fullPath + u.length < 2 ^ 32), hlast]
  by_cases hx : x = slash
  · subst hx
    have hwith : withSlash (u ++ [slash]) = u ++ [slash] := if_pos List.getLast?_concat
    rw [if_neg (not_not.2 rfl), if_neg (not_not.2 rfl), hwith]
    exact ⟨rfl, hlength.symm⟩
  · have hwith : withSlash (u ++ [x]) = u ++ [x] ++ [slash] := by
      refine if_neg ?_
      rw [List.getLast?_concat]
      exact fun h => hx (Option.some.inj h)
    rw [if_pos hx, if_pos hx, hwith, sizeAdd_eq (by omega : fullPath + (u ++ [x]).length < 2 ^ 32)]
    have hlong : (u ++ [x] ++ [slash]).length = (u ++ [x]).length + 1 := by rw [List.length_append, List.length_singleton]
    exact ⟨write_padded m fullPath (by rw [List.length_singleton]; omega), hlong.symm⟩

/-- The path behind the directory in the buffer; the terminator of an empty one is stored over a zero. -/
private theorem copyPath_spec (hpath : StringAt m pathname p) (hapart : Apart pathname (p.length + 1) fullPath size)
    (hlen : s.length + p.length + 1 ≤ size) :
    strncpyAt (m.writeBytes fullPath (padded s size)) (fullPath + s.length) pathname (p.length + 1) =
      m.writeBytes fullPath (padded (s ++ p) size) := by
  have hlength : (padded s size).length = size := length_padded (by omega)
  have hpath' : StringAt (m.writeBytes fullPath (padded s size)) pathname p := hpath.write (by rwa [hlength])
  by_cases hp : p = []
  · subst hp
    have hzero : m.writeBytes fullPath (padded s size) pathname = 0 := by
      have hget := hpath'.get (i := 0) (Nat.zero_le _)
      exact (Option.some.inj hget).symm
    have hone : strncpyAt (m.writeBytes fullPath (padded s size)) (fullPath + s.length) pathname 1 =
        (m.writeBytes fullPath (padded s size)).writeBytes (fullPath + s.length) [0] := by
      rw [strncpyAt, hzero, if_neg (fun h => h.2 rfl)]
    rw [List.append_nil]
    refine hone.trans ?_
    rw [write_padded m fullPath (by rw [List.length_singleton]; exact hlen), padded_zero hlen]
  · rw [hpath'.strncpyAt hp (.inr rfl), write_padded m fullPath (by omega)]
    unfold Apart at hapart ⊢
    omega

private theorem storeRoot_spec (hs : NoNul s) (hlen : s.length < size) :
    (if m.writeBytes fullPath (padded s size) fullPath = 0
      then (m.writeBytes fullPath (padded s size)).writeBytes fullPath [slash]
      else m.writeBytes fullPath (padded s size)) =
      m.writeBytes fullPath (padded (if s = [] then [slash] else s) size) := by
  cases s with
  | nil =>
    have hzero : m.writeBytes fullPath (padded [] size) fullPath = 0 := get_padded_zero m fullPath hlen
    have hroom : ([] : List UInt8).length + [slash].length ≤ size := hlen
    rw [if_pos hzero, if_pos rfl]
    exact write_padded m fullPath hroom
  | cons b s =>
    have hget : m.writeBytes fullPath (padded (b :: s) size) (fullPath + 0) = b := get_padded m fullPath hlen.le rfl
    rw [Nat.add_zero] at hget
    rw [hget, if_neg hs.of_cons.1, if_neg (List.cons_ne_nil b s)]

/-- `join_path` with a working directory leaves the path in the buffer, or the empty string when there is no room for
it. -/
private theorem joinPathAt_spec (h : Arguments m cwd pathname fullPath size c p) (hne : c ≠ []) :
    joinPathAt m cwd pathname fullPath size = some (m.writeBytes fullPath
      (if size < c.length + p.length + 2 then [0] else padded (joinedPath c p) size)) := by
  have hsizes := h.sizes
  have hbuffer := h.buffer
  have htotal : sizeAdd (sizeAdd c.length p.length) 2 = c.length + p.length + 2 := by
    rw [sizeAdd_eq (by omega : c.length + p.length < 2 ^ 32), sizeAdd_eq hsizes]
  simp only [joinPathAt, h.atCwd.strlen, h.atPath.strlen, Option.bind_eq_bind, Option.bind_some, htotal]
  by_cases hlong : size < c.length + p.length + 2
  · rw [if_pos hlong, if_pos hlong]
  rw [if_neg hlong, if_neg hlong, joinedPath]
  -- the cleared buffer
  have hclear : m.writeBytes fullPath (List.replicate size 0) = m.writeBytes fullPath (padded [] size) := rfl
  have hlength : (padded [] size).length = size := length_padded (Nat.zero_le size)
  have hcwd : StringAt (m.writeBytes fullPath (padded [] size)) cwd c := h.atCwd.write (by rw [hlength]; exact h.cwdApart)
  have hpath : StringAt (m.writeBytes fullPath (padded [] size)) pathname p :=
    h.atPath.write (by rw [hlength]; exact h.pathApart)
  have hfirst : m.writeBytes fullPath (padded [] size) pathname = slash ↔ p.head? = some slash := by
    have hget := hpath.get (i := 0) (Nat.zero_le _)
    rw [Nat.add_zero] at hget
    cases p with
    | nil =>
      rw [← Option.some.inj hget]
      decide
    | cons b p =>
      rw [← Option.some.inj hget, List.head?_cons, Option.some.injEq]
  rw [hclear]
  by_cases habsolute : p.head? = some slash
  · have hp : p ≠ [] := by
      rintro rfl
      cases habsolute
    have hcopy := copyPath_spec (s := []) h.atPath h.pathApart (by rw [List.length_nil]; omega)
    rw [if_pos (hfirst.2 habsolute), if_pos habsolute, sizeAdd_eq (by omega : p.length + 1 < 2 ^ 32)]
    exact congrArg some hcopy
  · rw [if_neg (mt hfirst.1 habsolute), if_neg habsolute]
    have hcopyCwd : strncpyAt (m.writeBytes fullPath (padded [] size)) fullPath cwd c.length =
        m.writeBytes fullPath (padded c size) := by
      rw [hcwd.strncpyAt hne (.inl rfl)]
      · exact write_padded m fullPath (s := []) (by rw [List.length_nil]; omega)
      · have hapart := h.cwdApart
        unfold Apart at hapart ⊢
        omega
    obtain ⟨hstore, hkeep⟩ := storeSlash_spec (m := m) hne (by omega : c.length + 2 ≤ size) hbuffer
    rw [hcopyCwd, hstore]
    generalize (if m.writeBytes fullPath (padded c size) (sizeAdd fullPath (sizeSub c.length 1)) ≠ slash then c.length
      else sizeSub c.length 1) = k at hkeep ⊢
    have hle := length_withSlash_le c
    have hdestination : sizeAdd (sizeAdd fullPath k) 1 = fullPath + (withSlash c).length := by
      rw [sizeAdd_eq (by omega : fullPath + k < 2 ^ 32), sizeAdd_eq (by omega), ← hkeep, Nat.add_assoc]
    have hfull : (withSlash c ++ p).length = (withSlash c).length + p.length := List.length_append
    have hend : sizeAdd (sizeAdd k p.length) 1 = (withSlash c ++ p).length := by
      rw [sizeAdd_eq (by omega : k + p.length < 2 ^ 32), sizeAdd_eq (by omega)]
      omega
    have hlast := withSlash_getLast? c
    have hfullNe : withSlash c ++ p ≠ [] := by
      intro hnil
      rw [(List.append_eq_nil_iff.1 hnil).1] at hlast
      cases hlast
    have hfullDot : withSlash c ++ p ≠ [dot] := by
      intro hdot
      rcases List.append_eq_singleton_iff.1 hdot with ⟨hnil, -⟩ | ⟨hone, -⟩
      · rw [hnil] at hlast
        cases hlast
      · rw [hone] at hlast
        cases hlast
    rw [hdestination, hend, sizeAdd_eq (by omega : p.length + 1 < 2 ^ 32),
      copyPath_spec h.atPath h.pathApart (by omega), cutDot_spec hfullNe hfullDot (by omega) hbuffer (by omega)]
    have hprefix := withoutDot_isPrefix (withSlash c ++ p)
    have hnul : NoNul (withSlash c ++ p) := by
      intro b hb
      rcases List.mem_append.1 hb with hb | hb
      · exact noNul_withSlash h.atCwd.noNul b hb
      · exact h.atPath.noNul b hb
    have hroom := hprefix.length_le
    rw [storeRoot_spec (hnul.mono hprefix.subset) (by omega)]
    rfl

/-! ### The names of a path -/

/-- The components of a path but the empty ones and the dots. -/
def pathNames (path : List UInt8) : List (List UInt8) := (path.splitOn slash).filter fun name => name ≠ [] ∧ name ≠ [dot]

private theorem pathNames_append (s t : List UInt8) : pathNames (s ++ slash :: t) = pathNames s ++ pathNames t := by
  rw [pathNames, List.splitOn_append_cons_self, List.filter_append]
  rfl

private theorem pathNames_slash (s : List UInt8) : pathNames (s ++ [slash]) = pathNames s := by
  rw [pathNames_append]
  exact List.append_nil _

private theorem pathNames_dot (s : List UInt8) : pathNames (s ++ [slash, dot]) = pathNames s := by
  rw [pathNames_append]
  exact List.append_nil _

private theorem pathNames_withSlash (c p : List UInt8) : pathNames (withSlash c ++ p) = pathNames c ++ pathNames p := by
  unfold withSlash
  split
  · rename_i hlast
    obtain ⟨u, rfl⟩ : ∃ u, c = u ++ [slash] := ⟨_, (List.dropLast_append_getLast? _ hlast).symm⟩
    rw [pathNames_slash, List.append_assoc, List.singleton_append, pathNames_append]
  · rw [List.append_assoc, List.singleton_append, pathNames_append]

private theorem pathNames_withoutDot (s : List UInt8) : pathNames (withoutDot s) = pathNames s := by
  unfold withoutDot
  split
  · rename_i hsuffix
    obtain ⟨u, rfl⟩ := List.isSuffixOf_iff_suffix.1 hsuffix
    have hdrop : (u ++ [slash, dot]).dropLast.dropLast = u := by simp
    rw [hdrop, pathNames_dot]
  · rfl

private theorem pathNames_joined (c p : List UInt8) : pathNames (joined c p) = pathNames c ++ pathNames p := by
  rw [← pathNames_withSlash, ← pathNames_withoutDot (withSlash c ++ p)]
  unfold joined
  split
  · rename_i hnil
    rw [hnil]
    rfl
  · rfl

private theorem joined_head? (hc : c.head? = some slash) (p : List UInt8) : (joined c p).head? = some slash := by
  have hne : c ≠ [] := by
    rintro rfl
    cases hc
  have hfull : (withSlash c ++ p).head? = some slash := by
    unfold withSlash
    split
    · rw [List.head?_append_of_ne_nil _ hne, hc]
    · rw [List.append_assoc, List.head?_append_of_ne_nil _ hne, hc]
  unfold joined
  split
  · rfl
  · rename_i hnil
    obtain ⟨t, ht⟩ := withoutDot_isPrefix (withSlash c ++ p)
    rw [← ht, List.head?_append_of_ne_nil _ hnil] at hfull
    exact hfull

private theorem length_joined_le (c p : List UInt8) : (joined c p).length ≤ c.length + p.length + 1 := by
  have hwith := length_withSlash_le c
  have hprefix := (withoutDot_isPrefix (withSlash c ++ p)).length_le
  rw [List.length_append] at hprefix
  unfold joined
  split
  · rw [List.length_singleton]
    omega
  · omega

private theorem noNul_joined (hc : NoNul c) (hp : NoNul p) : NoNul (joined c p) := by
  unfold joined
  split
  · exact fun b hb => by rw [List.mem_singleton.1 hb]; decide
  · intro b hb
    rcases List.mem_append.1 ((withoutDot_isPrefix _).subset hb) with hb | hb
    · exact noNul_withSlash hc b hb
    · exact hp b hb

/-! ### `join_path` -/

/-- What `join_path` promises: it stores inside of the buffer only, and leaves there the path that leads from the directory
`c` along `p`, or the empty string when there is no room for it. -/
structure Joins (m m' : ByteMem) (fullPath size : Nat) (c p : List UInt8) : Prop where
  frame : ∀ a, a < fullPath ∨ fullPath + size ≤ a → m' a = m a
  fits : c.length + p.length + 2 ≤ size → ∃ s, StringAt m' fullPath s ∧ s.length < size ∧ s.head? = some slash ∧
    pathNames s = if p.head? = some slash then pathNames p else pathNames c ++ pathNames p
  long : size < c.length + p.length + 2 → StringAt m' fullPath []

private theorem length_joinedPath_le (c p : List UInt8) : (joinedPath c p).length ≤ c.length + p.length + 1 := by
  unfold joinedPath
  split
  · omega
  · exact length_joined_le c p

private theorem noNul_joinedPath (hc : NoNul c) (hp : NoNul p) : NoNul (joinedPath c p) := by
  unfold joinedPath
  split
  · exact hp
  · exact noNul_joined hc hp

private theorem stringAt_empty (m : ByteMem) (hbuffer : fullPath + size ≤ 2 ^ 32) (hpos : 1 ≤ size) :
    StringAt (m.writeBytes fullPath [0]) fullPath [] := by
  refine ⟨by simp [NoNul], readBytes_write_self m fullPath [0], ?_⟩
  rw [List.length_nil]
  omega

/-- The buffer of the system calls holds what `joinPath` says. -/
theorem joinPathAt_joinPath (h : Arguments m cwd pathname fullPath pathSize c p) (hne : c ≠ []) :
    ∃ m' s, joinPathAt m cwd pathname fullPath pathSize = some m' ∧ joinPath c p = some s ∧ StringAt m' fullPath s := by
  refine ⟨_, _, joinPathAt_spec h hne, joinPath_eq hne p, ?_⟩
  by_cases hlong : pathSize < c.length + p.length + 2
  · rw [if_pos hlong, if_pos hlong]
    exact stringAt_empty m h.buffer h.pos
  · rw [if_neg hlong, if_neg hlong]
    have hlength := length_joinedPath_le c p
    exact stringAt_padded m (noNul_joinedPath h.atCwd.noNul h.atPath.noNul) (by omega) h.buffer

/-- `join_path` keeps its promise for every directory that starts with a slash. -/
theorem joinPathAt_joins (h : Arguments m cwd pathname fullPath size c p) (hc : c.head? = some slash) :
    ∃ m', joinPathAt m cwd pathname fullPath size = some m' ∧ Joins m m' fullPath size c p := by
  have hne : c ≠ [] := by
    rintro rfl
    cases hc
  have hlength := length_joinedPath_le c p
  refine ⟨_, joinPathAt_spec h hne, ?_, ?_, ?_⟩
  · intro a ha
    refine writeBytes_outside m ?_
    have hpos := h.pos
    split
    · rw [List.length_singleton]
      omega
    · rw [length_padded (by omega)]
      exact ha
  · intro hfits
    rw [if_neg (by omega)]
    refine ⟨joinedPath c p, stringAt_padded m (noNul_joinedPath h.atCwd.noNul h.atPath.noNul) (by omega) h.buffer,
      by omega, ?_, ?_⟩
    · unfold joinedPath
      split
      · assumption
      · exact joined_head? hc p
    · unfold joinedPath
      split
      · rfl
      · exact pathNames_joined c p
  · intro hlong
    rw [if_pos hlong]
    exact stringAt_empty m h.buffer h.pos

/-- A memory with the strings `/a` and `b/.`. -/
def twoStrings : ByteMem :=
  writeBytes (writeBytes (fun _ => 0) 0x1000 [slash, 0x61, 0]) 0x2000 [0x62, slash, dot, 0]

private theorem twoStrings_arguments : Arguments twoStrings 0x1000 0x2000 0x3000 pathSize [slash, 0x61] [0x62, slash, dot] where
  atCwd := ⟨by simp [NoNul, slash], by decide, by decide⟩
  atPath := ⟨by simp [NoNul, slash, dot], by decide, by decide⟩
  pos := by decide
  buffer := by decide
  strings := .inl (by decide)
  cwdApart := .inl (by decide)
  pathApart := .inl (by decide)

theorem joinPathAt_joins_twoStrings : ∃ m', joinPathAt twoStrings 0x1000 0x2000 0x3000 pathSize = some m' ∧
    Joins twoStrings m' 0x3000 pathSize [slash, 0x61] [0x62, slash, dot] :=
  joinPathAt_joins twoStrings_arguments rfl

end Join

end DBolOS.Vfs
