import DBolOS.Fat.Listing
import DBolOS.Fat.Names
import DBolOS.Fat.Tree
import DBolOS.Vfs.Modes

/-!
# Listing a directory

`_getdents` copies the records of a directory out by their numbers, as many as the buffer takes, and keeps the number of
the next one in the offset of the descriptor.  Repeated calls list exactly the used slots when these stand in front of the
others, the size recorded for the directory ends the listing behind them, and no name runs into the attribute
(`listsExactly_iff`).
-/

namespace DBolOS.Vfs

open Failing
open Fat (DirEntry Volume)
open Proc (Process FileDescriptor Manager MAX_LOCAL_FD)

/-! ### Records -/

def DT_DIR : UInt8 := 4
def DT_REG : UInt8 := 8

/-- `sizeof(struct linux_dirent)`, with the padding behind its last member. -/
def sizeofLinuxDirent : Nat := 12

/-- The offset of `d_name`. -/
def dNameOffset : Nat := 10

/-- The record that is copied to the caller, in a block that holds the bytes `fresh`. -/
def linuxDirent (fresh : ByteMem) (entry : DirEntry) (dOff : UInt32) (nameLen : Nat) : Option (List UInt8) := do
  let entrySize := sizeofLinuxDirent + nameLen + 1
  let name ← strcpy entry.toBytes
  if entrySize < dNameOffset + name.length then none
  else
    let tmp := fresh.readBytes 0 entrySize
    let tmp := ByteMem.splice tmp 0 (ByteMem.le32 entry.startCluster.toUInt32 ++ ByteMem.le32 dOff ++
      ByteMem.le16 (UInt16.ofNat entrySize))
    let tmp := ByteMem.splice tmp dNameOffset name
    some (ByteMem.splice tmp (dNameOffset + nameLen) [0, if entry.isDirectory then DT_DIR else DT_REG])

/-- The loop of `_getdents`, with `count` bytes left in the buffer and `n` bounding the records: the error returned, the
records and the offset.  `strlen` and `strcpy` take the name at the head of the record, which may run past the field. -/
def getdentsLoop (fresh : UInt32 → ByteMem) (v : Volume) (dir : DirEntry) :
    Nat → UInt32 → Nat → Option (Option Int × List UInt8 × UInt32)
  | 0, offset, count => if count = 0 then some (none, [], offset) else none
  | n + 1, offset, count =>
    if count = 0 then some (none, [], offset)
    else if dir.fileSize ≤ offset then some (none, [], offset)
    else do
      match ← v.fatGetDirEntry dir offset.toNat with
      | .error r => some (if r = Fat.FILE_NOT_FOUND then none else some r, [], offset)
      | .ok entry =>
        let nameLen ← strlen entry.toBytes
        let entrySize := sizeofLinuxDirent + nameLen + 1
        if count < entrySize then some (none, [], offset)
        else
          let tmp ← linuxDirent (fresh offset) entry offset nameLen
          let (err, bytes, offset) ← getdentsLoop fresh v dir n (offset + 1) (count - entrySize)
          some (err, tmp ++ bytes, offset)

namespace Kernel

/-- `_getdents`: the return value, the bytes stored in the buffer and the kernel after it. -/
def sysGetdents (fresh : UInt32 → ByteMem) (k : Kernel) (fd count : UInt32) :
    Except Fault ((Int × List UInt8) × Kernel) :=
  if MAX_LOCAL_FD ≤ fd.toNat then .ok ((-EBADF, []), k)
  else do
    let c ← Fault.process.of k.manager.currentProcess
    let p ← k.process c
    let d ← slotOf p.fdTable fd.toNat
    if !d.isUsed then .ok ((-EBADF, []), k)
    else if !hasFlag d.flags O_DIRECTORY then .ok ((-ENOTDIR, []), k)
    else if hasFlag d.flags O_RDONLY then .ok ((-EPERM, []), k)
    else
      let (_, x) ← k.globalOf d
      if x.file.fileEntry.fileSize ≤ d.offset then .ok ((0, []), k)
      else
        let (err, bytes, offset) ←
          Fault.fileSystem.of (getdentsLoop fresh k.volume x.file.fileEntry count.toNat d.offset count.toNat)
        let k ← k.setSlot c fd.toNat { d with offset }
        .ok ((err.getD (Int.bmod bytes.length (2 ^ 32)), bytes), k)

/-- The first `n` calls, with the buffer sizes `counts`: what each returns and stores. -/
def getdentsCalls (fresh : Nat → UInt32 → ByteMem) (counts : Nat → UInt32) (fd : UInt32) (k : Kernel) :
    Nat → Except Fault (List (Int × List UInt8) × Kernel)
  | 0 => .ok ([], k)
  | n + 1 => do
    let (results, k') ← getdentsCalls fresh counts fd k n
    let (result, k') ← sysGetdents (fresh n) k' fd (counts n)
    .ok (results ++ [result], k')

end Kernel

/-! ### Reading the records back -/

/-- The names and inode numbers in a buffer, each record found behind the one before by its length. -/
def readDirents : Nat → List UInt8 → List (List UInt8 × UInt32)
  | 0, _ => []
  | n + 1, bytes =>
    if bytes = [] then []
    else
      let b := fun i => bytes.getD i 0
      (cstr (bytes.drop dNameOffset), ByteMem.ofLe32 (b 0) (b 1) (b 2) (b 3)) ::
        readDirents n (bytes.drop (ByteMem.ofLe16 (b 8) (b 9)).toNat)

def dirents (bytes : List UInt8) : List (List UInt8 × UInt32) := readDirents bytes.length bytes

/-- A record as `_getdents` reads it: the string at its head, and its cluster. -/
def listedAs (e : DirEntry) : List UInt8 × UInt32 := (cstr e.toBytes, e.startCluster.toUInt32)

/-- A record by its name and its cluster. -/
def nameAndCluster (e : DirEntry) : List UInt8 × UInt32 := (e.nameStr, e.startCluster.toUInt32)

private theorem nameStr_eq_take (e : DirEntry) : e.nameStr = (cstr e.toBytes).take 11 := by
  obtain ⟨u, hu⟩ := e.exists_toBytes
  rw [← cstr_take, hu, List.take_left' (by simp), DirEntry.nameStr]

/-- A name is listed right unless it fills its field and an attribute follows. -/
theorem listedAs_eq_iff (e : DirEntry) : listedAs e = nameAndCluster e ↔ (e.nameStr.length = 11 → e.attr = 0) := by
  have hlen : e.nameStr.length ≤ 11 := e.length_nameStr_le
  have hiff := @DirEntry.toBytes_eq_append_iff e _ e.noNul_nameStr hlen
  rw [listedAs, nameAndCluster, Prod.mk.injEq, and_iff_left rfl]
  constructor
  · intro h
    refine (hiff.1 ?_).2
    rcases cstr_eq_or_append e.toBytes with hall | hzero
    · have := congrArg List.length (h.symm.trans hall)
      rw [DirEntry.length_toBytes] at this
      omega
    · rwa [h] at hzero
  · intro hattr
    obtain ⟨u, hu⟩ := hiff.2 ⟨rfl, hattr⟩
    rw [hu, cstr_append_zero e.noNul_nameStr]

private theorem used_of_listedAs {e e' : DirEntry} (hused : e'.used = true) (h : listedAs e = nameAndCluster e') :
    e.used = true := by
  rw [DirEntry.used_iff] at hused ⊢
  have hname : cstr e.toBytes = e'.nameStr := congrArg Prod.fst h
  rw [nameStr_eq_take, hname]
  intro hnil
  rw [List.take_eq_nil_iff] at hnil
  simp [hused] at hnil

/-- What stands in a record: the inode number, the position, the length, the name and its terminator. -/
theorem linuxDirent_spec {fresh : ByteMem} {e : DirEntry} {dOff : UInt32} {nameLen : Nat} {tmp : List UInt8}
    (hlen : strlen e.toBytes = some nameLen) (h : linuxDirent fresh e dOff nameLen = some tmp) :
    ∃ u, u.length = 2 ∧ (cstr e.toBytes).length = nameLen ∧
      tmp = ByteMem.le32 e.startCluster.toUInt32 ++ ByteMem.le32 dOff ++
        ByteMem.le16 (UInt16.ofNat (nameLen + 13)) ++ (cstr e.toBytes ++ 0 :: u) := by
  rw [strlen_eq] at hlen
  split at hlen
  swap
  · cases hlen
  rename_i hzero
  obtain rfl := Option.some.inj hlen
  obtain ⟨s, hs⟩ : ∃ s, s = cstr e.toBytes := ⟨_, rfl⟩
  have hnul : NoNul s := hs ▸ noNul_cstr e.toBytes
  obtain ⟨t, ht⟩ : ∃ t, e.toBytes = s ++ 0 :: t := by
    rcases cstr_eq_or_append e.toBytes with hall | hrest
    · rw [← hall] at hzero
      exact absurd rfl (noNul_cstr _ 0 hzero)
    · rwa [hs]
  rw [← hs] at h ⊢
  simp only [linuxDirent, Option.bind_eq_bind, Option.bind_eq_some_iff] at h
  obtain ⟨name, hname, h⟩ := h
  split at h
  · cases h
  rename_i hfits
  -- the copy starts with the name
  have hhead : name.take s.length = s := by
    rcases eq_or_ne s [] with rfl | hne
    · rfl
    · rw [ht, strcpy_eq hnul hne] at hname
      rw [← Option.some.inj hname, List.take_left]
  obtain ⟨header, hheader⟩ : ∃ header, header = ByteMem.le32 e.startCluster.toUInt32 ++ ByteMem.le32 dOff ++
      ByteMem.le16 (UInt16.ofNat (sizeofLinuxDirent + s.length + 1)) := ⟨_, rfl⟩
  have hten : header.length = 10 := by
    rw [hheader]
    rfl
  obtain ⟨block, hblock⟩ : ∃ block, block = fresh.readBytes 0 (sizeofLinuxDirent + s.length + 1) := ⟨_, rfl⟩
  have hblockLen : block.length = s.length + 13 := by
    rw [hblock, ByteMem.length_readBytes, sizeofLinuxDirent]
    omega
  have hfirst : ByteMem.splice block 0 header = header ++ block.drop 10 := by
    rw [ByteMem.splice, List.take_zero, List.nil_append, Nat.zero_add, hten]
  have hnameLen : name.length ≤ s.length + 3 := by
    rw [sizeofLinuxDirent, dNameOffset] at hfits
    omega
  have hle : s.length ≤ name.length := by
    rw [← hhead, List.length_take]
    exact Nat.min_le_right _ _
  have hsecond : ByteMem.splice (header ++ block.drop 10) dNameOffset name =
      header ++ (name ++ (block.drop 10).drop name.length) := by
    have := ByteMem.splice_append_right header (block.drop 10) name 0
    rw [hten] at this
    rw [dNameOffset, this, ByteMem.splice, List.take_zero, List.nil_append, Nat.zero_add]
  have hthird := ByteMem.splice_append_right header (name ++ (block.drop 10).drop name.length)
    [0, if e.isDirectory then DT_DIR else DT_REG] s.length
  rw [hten] at hthird
  rw [← hheader, ← hblock, hfirst, hsecond, dNameOffset, hthird, Option.some.injEq] at h
  refine ⟨(if e.isDirectory then DT_DIR else DT_REG) ::
    (name ++ (block.drop 10).drop name.length).drop (s.length + 2), ?_, rfl, ?_⟩
  · simp only [List.length_cons, List.length_drop, List.length_append, hblockLen]
    omega
  · have hsize : sizeofLinuxDirent + s.length + 1 = s.length + 13 := by
      rw [sizeofLinuxDirent]
      omega
    rw [← h, hheader, hsize, ByteMem.splice, List.take_append_of_le_length hle, hhead]
    simp

/-- A record is read back, and then what follows it. -/
theorem readDirents_linuxDirent {fresh : ByteMem} {e : DirEntry} {dOff : UInt32} {nameLen : Nat} {tmp : List UInt8}
    (hlen : strlen e.toBytes = some nameLen) (h : linuxDirent fresh e dOff nameLen = some tmp) (n : Nat)
    (more : List UInt8) :
    tmp.length = nameLen + 13 ∧ readDirents (n + 1) (tmp ++ more) = listedAs e :: readDirents n more := by
  obtain ⟨u, hu, hname, rfl⟩ := linuxDirent_spec hlen h
  have hsize : nameLen ≤ 32 := by
    have := (List.takeWhile_prefix (· ≠ 0) (l := e.toBytes)).length_le
    rw [DirEntry.length_toBytes] at this
    rw [← hname]
    exact this
  obtain ⟨tail, htail⟩ : ∃ tail, tail = cstr e.toBytes ++ 0 :: u := ⟨_, rfl⟩
  have htailLen : tail.length = nameLen + 3 := by
    rw [htail, List.length_append, List.length_cons, hname, hu]
  obtain ⟨reclen, hreclen⟩ : ∃ reclen, reclen = UInt16.ofNat (nameLen + 13) := ⟨_, rfl⟩
  have hreclenNat : reclen.toNat = nameLen + 13 := by
    rw [hreclen, UInt16.toNat_ofNat']
    omega
  rw [← htail, ← hreclen]
  refine ⟨?_, ?_⟩
  · simp only [List.length_append, ByteMem.length_le32, ByteMem.length_le16, htailLen]
    omega
  have hstring : cstr (tail ++ more) = cstr e.toBytes := by
    rw [htail, List.append_assoc, List.cons_append, cstr_append_zero (noNul_cstr _)]
  have hdrop : (tail ++ more).drop (nameLen + 3) = more := by rw [← htailLen, List.drop_left]
  rw [readDirents, if_neg (by simp [ByteMem.le32]), listedAs]
  simp only [ByteMem.le32, ByteMem.le16, List.cons_append, List.nil_append, List.getD_cons_zero, List.getD_cons_succ,
    ByteMem.ofLe32_le32, ByteMem.ofLe16_le16, dNameOffset, List.drop_succ_cons, List.drop_zero, hstring]
  rw [hreclenNat]
  simp only [List.drop_succ_cons, hdrop]

/-- The size of a record. -/
def recordSize (e : DirEntry) : Nat := sizeofLinuxDirent + (cstr e.toBytes).length + 1

/-- The records with a name that ends inside the record are copied out. -/
private theorem linuxDirent_defined {e : DirEntry} (hused : e.used = true) (hzero : 0 ∈ e.toBytes) (fresh : ByteMem)
    (dOff : UInt32) : ∃ nameLen tmp, strlen e.toBytes = some nameLen ∧ linuxDirent fresh e dOff nameLen = some tmp := by
  obtain ⟨s, hs⟩ : ∃ s, s = cstr e.toBytes := ⟨_, rfl⟩
  have hnul : NoNul s := hs ▸ noNul_cstr e.toBytes
  have hne : s ≠ [] := by
    rintro rfl
    rw [DirEntry.used_iff, nameStr_eq_take, ← hs] at hused
    exact hused rfl
  obtain ⟨t, ht⟩ : ∃ t, e.toBytes = s ++ 0 :: t := by
    rcases cstr_eq_or_append e.toBytes with hall | hrest
    · rw [← hall] at hzero
      exact absurd rfl (noNul_cstr _ 0 hzero)
    · rwa [hs]
  have hcopy : strcpy e.toBytes = some (s ++ [0]) := by rw [ht, strcpy_eq hnul hne]
  have hfits : ¬sizeofLinuxDirent + s.length + 1 < dNameOffset + (s ++ [0]).length := by
    rw [sizeofLinuxDirent, dNameOffset, List.length_append, List.length_singleton]
    omega
  have hlen : strlen e.toBytes = some s.length := by rw [strlen_eq, if_pos hzero, hs]
  obtain ⟨tmp, htmp⟩ : ∃ tmp, linuxDirent fresh e dOff s.length = some tmp := by
    simp only [linuxDirent, hcopy, Option.bind_eq_bind, Option.bind_some, if_neg hfits]
    exact ⟨_, rfl⟩
  exact ⟨s.length, tmp, hlen, htmp⟩

section Loop

variable {fresh : UInt32 → ByteMem} {v : Volume} {dir : DirEntry} {cs : List Nat}

/-- The records that the numbers of a directory stand for. -/
def numbered (v : Volume) (dir : DirEntry) (cs : List Nat) : List DirEntry :=
  Cursor.listed DirEntry.used dir.fileSize.toNat (v.view.records cs)

private theorem length_numbered_le : (numbered v dir cs).length ≤ dir.fileSize.toNat := Cursor.length_listed_le _

private theorem numbered_getElem?_of_le {offset : UInt32} (h : dir.fileSize ≤ offset) :
    (numbered v dir cs)[offset.toNat]? = none := by
  have hle : dir.fileSize.toNat ≤ offset.toNat := UInt32.le_iff_toNat_le.1 h
  exact List.getElem?_eq_none_iff.2 (length_numbered_le.trans hle)

/-- From `offset` on the records `shown` are copied out into `bytes`, as many as fit into `count` bytes. -/
structure CopiesOut (all shown : List DirEntry) (offset offset' : UInt32) (count : Nat) (bytes : List UInt8) : Prop where
  moved : offset'.toNat = offset.toNat + shown.length
  split : all.drop offset.toNat = shown ++ all.drop offset'.toNat
  read : ∀ m, bytes.length ≤ m → readDirents m bytes = shown.map listedAs
  length_le : bytes.length ≤ count
  full : shown = [] → ∀ e, all[offset.toNat]? = some e → count < recordSize e
  nil_iff : bytes = [] ↔ shown = []

private theorem CopiesOut.none {all : List DirEntry} {offset : UInt32} {count : Nat}
    (hfull : ∀ e, all[offset.toNat]? = some e → count < recordSize e) : CopiesOut all [] offset offset count [] where
  moved := rfl
  split := rfl
  read := by
    intro m _
    cases m <;> rfl
  length_le := Nat.zero_le _
  full := fun _ => hfull
  nil_iff := iff_of_true rfl rfl

private theorem CopiesOut.cons {all shown : List DirEntry} {offset offset' : UInt32} {count nameLen : Nat}
    {e : DirEntry}
    {tmp bytes : List UInt8} {heap : ByteMem} (hget : all[offset.toNat]? = some e)
    (hnext : (offset + 1).toNat = offset.toNat + 1) (hlen : strlen e.toBytes = some nameLen)
    (htmp : linuxDirent heap e offset nameLen = some tmp) (hfits : nameLen + 13 ≤ count)
    (h : CopiesOut all shown (offset + 1) offset' (count - (nameLen + 13)) bytes) :
    CopiesOut all (e :: shown) offset offset' count (tmp ++ bytes) := by
  have htmpLen : tmp.length = nameLen + 13 := (readDirents_linuxDirent hlen htmp 0 []).1
  have hsplit := h.split
  rw [hnext] at hsplit
  obtain ⟨hlt, hat⟩ := List.getElem?_eq_some_iff.1 hget
  refine ⟨?_, ?_, ?_, ?_, fun hnil => absurd hnil (List.cons_ne_nil e shown), ?_⟩
  · rw [h.moved, hnext, List.length_cons]
    omega
  · rw [List.drop_eq_getElem_cons hlt, hat, hsplit, List.cons_append]
  · intro m hm
    rw [List.length_append, htmpLen] at hm
    obtain ⟨m, rfl⟩ : ∃ m', m = m' + 1 := ⟨m - 1, by omega⟩
    rw [(readDirents_linuxDirent hlen htmp m bytes).2, h.read m (by omega), List.map_cons]
  · have := h.length_le
    rw [List.length_append, htmpLen]
    omega
  · refine iff_of_false ?_ (List.cons_ne_nil e shown)
    intro hnil
    have := congrArg List.length hnil
    rw [List.length_append, htmpLen, List.length_nil] at this
    omega

/-- An offset below the number of records does not wrap around. -/
private theorem toNat_offset_succ {offset : UInt32} (h : offset.toNat < (numbered v dir cs).length) :
    (offset + 1).toNat = offset.toNat + 1 := by
  have hle := @length_numbered_le v dir cs
  have hlt := dir.fileSize.toNat_lt
  rw [UInt32.toNat_add, UInt32.toNat_one, Nat.mod_eq_of_lt (by omega)]

private theorem strlen_recordSize {e : DirEntry} {nameLen : Nat} (h : strlen e.toBytes = some nameLen) :
    recordSize e = nameLen + 13 := by
  rw [strlen_eq] at h
  split at h
  · rw [recordSize, sizeofLinuxDirent, Option.some.inj h]
    omega
  · cases h

private theorem getdentsLoop_succ (hs : v.fs.Sound) (h : v.view.Chain dir.startCluster.toNat cs) (n : Nat)
    (offset : UInt32)
    {count : Nat} (hcount : count ≠ 0) : getdentsLoop fresh v dir (n + 1) offset count =
      match (numbered v dir cs)[offset.toNat]? with
      | none => some (none, [], offset)
      | some e => (do
        let nameLen ← strlen e.toBytes
        if count < nameLen + 13 then some (none, [], offset)
        else
          let tmp ← linuxDirent (fresh offset) e offset nameLen
          let (err, bytes, offset) ← getdentsLoop fresh v dir n (offset + 1) (count - (nameLen + 13))
          some (err, tmp ++ bytes, offset)) := by
  have hsize : ∀ nameLen, sizeofLinuxDirent + nameLen + 1 = nameLen + 13 := by
    intro nameLen
    rw [sizeofLinuxDirent]
    omega
  rw [getdentsLoop, if_neg hcount]
  by_cases hend : dir.fileSize ≤ offset
  · rw [if_pos hend, numbered_getElem?_of_le hend]
  · rw [if_neg hend, Fat.Volume.fatGetDirEntry_spec hs h, ← numbered]
    simp only [Option.bind_eq_bind, Option.bind_some, hsize]
    cases (numbered v dir cs)[offset.toNat]? with
    | none => rfl
    | some e => rfl

/-- The loop copies out records from its offset on, and stops where there is none or the next one does not fit. -/
private theorem getdentsLoop_spec (hs : v.fs.Sound) (h : v.view.Chain dir.startCluster.toNat cs) {n count : Nat}
    {offset offset' : UInt32} {err : Option Int} {bytes : List UInt8}
    (hloop : getdentsLoop fresh v dir n offset count = some (err, bytes, offset')) :
    err = none ∧ ∃ shown, CopiesOut (numbered v dir cs) shown offset offset' count bytes := by
  induction n generalizing offset count bytes with
  | zero =>
    rw [getdentsLoop] at hloop
    split at hloop
    · rename_i hcount
      cases hloop
      refine ⟨rfl, [], CopiesOut.none fun e _ => ?_⟩
      rw [hcount, recordSize]
      omega
    · cases hloop
  | succ n ih =>
    by_cases hcount : count = 0
    · rw [getdentsLoop, if_pos hcount] at hloop
      cases hloop
      refine ⟨rfl, [], CopiesOut.none fun e _ => ?_⟩
      rw [hcount, recordSize]
      omega
    rw [getdentsLoop_succ hs h n offset hcount] at hloop
    cases hget : (numbered v dir cs)[offset.toNat]? with
    | none =>
      rw [hget] at hloop
      cases hloop
      refine ⟨rfl, [], CopiesOut.none fun e he => ?_⟩
      rw [hget] at he
      cases he
    | some e =>
      rw [hget] at hloop
      obtain ⟨nameLen, hlen, hloop⟩ := Option.bind_eq_some_iff.1 hloop
      split at hloop
      · rename_i hfull
        cases hloop
        refine ⟨rfl, [], CopiesOut.none fun e' he' => ?_⟩
        rw [hget] at he'
        rwa [← Option.some.inj he', strlen_recordSize hlen]
      · rename_i hfits
        obtain ⟨tmp, htmp, hloop⟩ := Option.bind_eq_some_iff.1 hloop
        obtain ⟨⟨err', bytes', offset''⟩, hrest, hloop⟩ := Option.bind_eq_some_iff.1 hloop
        cases hloop
        obtain ⟨rfl, shown, hshown⟩ := ih hrest
        have hnext := toNat_offset_succ (List.getElem?_eq_some_iff.1 hget).1
        exact ⟨rfl, e :: shown, hshown.cons hget hnext hlen htmp (Nat.not_lt.1 hfits)⟩

/-- The loop goes through when every record has a name that ends inside it. -/
private theorem getdentsLoop_defined (hs : v.fs.Sound) (h : v.view.Chain dir.startCluster.toNat cs)
    (hlisted : ∀ e ∈ numbered v dir cs, e.used = true ∧ 0 ∈ e.toBytes) {n count : Nat} (hn : count ≤ n)
    (offset : UInt32) : ∃ r, getdentsLoop fresh v dir n offset count = some r := by
  induction n generalizing offset count with
  | zero => exact ⟨_, by rw [getdentsLoop, if_pos (Nat.le_zero.1 hn)]⟩
  | succ n ih =>
    by_cases hcount : count = 0
    · exact ⟨_, by rw [getdentsLoop, if_pos hcount]⟩
    rw [getdentsLoop_succ hs h n offset hcount]
    cases hget : (numbered v dir cs)[offset.toNat]? with
    | none => exact ⟨_, rfl⟩
    | some e =>
      obtain ⟨hused, hzero⟩ := hlisted e (List.mem_of_getElem? hget)
      obtain ⟨nameLen, tmp, hlen, htmp⟩ := linuxDirent_defined hused hzero (fresh offset) offset
      simp only [hlen, htmp, Option.bind_eq_bind, Option.bind_some]
      by_cases hfull : count < nameLen + 13
      · exact ⟨_, if_pos hfull⟩
      · obtain ⟨r, hr⟩ := @ih (count - (nameLen + 13)) (by omega) (offset + 1)
        rw [if_neg hfull, hr]
        exact ⟨_, rfl⟩

end Loop

namespace CopiesOut

variable {all shown : List DirEntry} {offset offset' : UInt32} {count : Nat} {bytes : List UInt8}

private theorem take_eq (h : CopiesOut all shown offset offset' count bytes) :
    all.take offset'.toNat = all.take offset.toNat ++ shown := by
  rw [h.moved, List.take_add, h.split, List.take_left]

private theorem offset_le (h : CopiesOut all shown offset offset' count bytes) (hle : offset.toNat ≤ all.length) :
    offset'.toNat ≤ all.length := by
  have hmoved := h.moved
  have hlength := congrArg List.length h.split
  rw [List.length_append, List.length_drop, List.length_drop] at hlength
  omega

private theorem dirents_eq (h : CopiesOut all shown offset offset' count bytes) : dirents bytes = shown.map listedAs :=
  h.read _ (Nat.le_refl _)

/-- Nothing is copied out at the end, and only there when the next record fits. -/
private theorem nil_iff_end (h : CopiesOut all shown offset offset' count bytes)
    (hfits : ∀ e, all[offset.toNat]? = some e → recordSize e ≤ count) : bytes = [] ↔ all.length ≤ offset.toNat := by
  rw [h.nil_iff, ← List.getElem?_eq_none_iff]
  constructor
  · intro hnil
    rw [Option.eq_none_iff_forall_not_mem]
    intro e he
    exact absurd (h.full hnil e he) (Nat.not_lt.2 (hfits e he))
  · intro hend
    have hlength := congrArg List.length h.split
    rw [List.drop_eq_nil_of_le (List.getElem?_eq_none_iff.1 hend), List.length_append] at hlength
    exact List.eq_nil_of_length_eq_zero (by simp at hlength; omega)

/-- The number of bytes is returned, and is zero for none. -/
private theorem bmod_eq_zero_iff (h : CopiesOut all shown offset offset' count bytes) (hcount : count < 2 ^ 32) :
    Int.bmod bytes.length (2 ^ 32) = 0 ↔ bytes = [] := by
  have hle := h.length_le
  rw [← List.length_eq_zero_iff, ← Int.dvd_iff_bmod_eq_zero, Int.natCast_dvd_natCast]
  constructor
  · exact fun hdvd => Nat.eq_zero_of_dvd_of_lt hdvd (by omega)
  · intro hzero
    rw [hzero]
    exact Nat.dvd_zero _

end CopiesOut

namespace Kernel

variable {k k' : Kernel} {c : Nat} {fd : UInt32} {d : FileDescriptor} {dir : DirEntry} {cs : List Nat}

/-- Descriptor `fd` of the running process `c` is the slot `d`, which is open on the directory `dir`. -/
structure OpenDir (k : Kernel) (c fd : Nat) (d : FileDescriptor) (dir : DirEntry) : Prop where
  running : k.manager.currentProcess = some c
  slot : k.slotAt c fd = some d
  used : d.isUsed = true
  flag : hasFlag d.flags O_DIRECTORY = true
  file : ∃ g x, d.globalFd = some g ∧ k.globalFdTable[g]? = some x ∧ x.file.fileEntry = dir

/-- A descriptor keeps its directory when its offset moves. -/
private theorem OpenDir.moved (h : OpenDir k c fd.toNat d dir) (offset : UInt32)
    (hset : k.setSlot c fd.toNat { d with offset } = .ok k') :
    OpenDir k' c fd.toNat { d with offset } dir ∧ k'.volume = k.volume := by
  obtain ⟨hslot, -, htable, hvolume, hrunning⟩ := (setSlot_touches k c fd.toNat _).value hset
  refine ⟨⟨hrunning.trans h.running, hslot, h.used, h.flag, ?_⟩, hvolume⟩
  rw [htable]
  exact h.file

/-- A call on an open directory. -/
theorem sysGetdents_eq (h : OpenDir k c fd.toNat d dir) (fresh : UInt32 → ByteMem) (count : UInt32) :
    sysGetdents fresh k fd count =
      if dir.fileSize ≤ d.offset then .ok ((0, []), k)
      else (do
        let (err, bytes, offset) ←
          Fault.fileSystem.of (getdentsLoop fresh k.volume dir count.toNat d.offset count.toNat)
        let k ← k.setSlot c fd.toNat { d with offset }
        .ok ((err.getD (Int.bmod bytes.length (2 ^ 32)), bytes), k)) := by
  obtain ⟨p, hp, hslot⟩ := Option.bind_eq_some_iff.1 h.slot
  obtain ⟨g, x, hg, hx, rfl⟩ := h.file
  have hprocess : k.process c = .ok p := Fault.of_eq_ok.2 hp
  have hslotOf : slotOf p.fdTable fd.toNat = .ok d := Fault.of_eq_ok.2 hslot
  have hglobal : k.globalOf d = .ok (g, x) := by
    have hentry : k.global g = .ok x := Fault.of_eq_ok.2 hx
    rw [globalOf, hg]
    simp only [Fault.of, bind, Except.bind, hentry]
  have hrunning : Fault.process.of k.manager.currentProcess = .ok c := Fault.of_eq_ok.2 h.running
  unfold sysGetdents
  simp only [if_neg (Nat.not_le.2 (slotAt_lt h.slot)), hrunning, hprocess, hslotOf, hglobal, h.used, h.flag,
    hasFlag_rdonly, bind, Except.bind, Bool.not_true, Bool.false_eq_true, if_false]

/-- A call copies out records from the offset on, and moves it behind them. -/
private theorem sysGetdents_spec (h : OpenDir k c fd.toNat d dir) (hs : k.volume.fs.Sound)
    (hch : k.volume.view.Chain dir.startCluster.toNat cs) {fresh : UInt32 → ByteMem} {count : UInt32}
    {ret : Int} {bytes : List UInt8} (hcall : sysGetdents fresh k fd count = .ok ((ret, bytes), k')) :
    ∃ shown offset', CopiesOut (numbered k.volume dir cs) shown d.offset offset' count.toNat bytes ∧
      ret = Int.bmod bytes.length (2 ^ 32) ∧ OpenDir k' c fd.toNat { d with offset := offset' } dir ∧
      k'.volume = k.volume := by
  rw [sysGetdents_eq h] at hcall
  split at hcall
  · rename_i hend
    cases hcall
    refine ⟨[], d.offset, CopiesOut.none fun e he => ?_, rfl, h, rfl⟩
    rw [numbered_getElem?_of_le hend] at he
    cases he
  · cases hloop : getdentsLoop fresh k.volume dir count.toNat d.offset count.toNat with
    | none =>
      rw [hloop] at hcall
      cases hcall
    | some r =>
      obtain ⟨err, bytes', offset⟩ := r
      obtain ⟨rfl, shown, hshown⟩ := getdentsLoop_spec hs hch hloop
      obtain ⟨k'', hset, -⟩ := setSlot_eq h.slot { d with offset }
      rw [hloop, Fault.of, ok_bind] at hcall
      dsimp only at hcall
      rw [hset, ok_bind, Option.getD_none] at hcall
      obtain ⟨hret, rfl⟩ := Prod.mk.inj (Except.ok.inj hcall)
      obtain ⟨rfl, rfl⟩ := Prod.mk.inj hret
      obtain ⟨hopen, hvolume⟩ := h.moved offset hset
      exact ⟨shown, offset, hshown, rfl, hopen, hvolume⟩

/-- A call goes through when every record has a name that ends inside it. -/
private theorem sysGetdents_defined (h : OpenDir k c fd.toNat d dir) (hs : k.volume.fs.Sound)
    (hch : k.volume.view.Chain dir.startCluster.toNat cs)
    (hlisted : ∀ e ∈ numbered k.volume dir cs, e.used = true ∧ 0 ∈ e.toBytes) (fresh : UInt32 → ByteMem)
    (count : UInt32) : ∃ r, sysGetdents fresh k fd count = .ok r := by
  rw [sysGetdents_eq h]
  by_cases hend : dir.fileSize ≤ d.offset
  · exact ⟨_, if_pos hend⟩
  · obtain ⟨⟨err, bytes, offset⟩, hr⟩ := @getdentsLoop_defined fresh k.volume dir cs hs hch hlisted _ _
      (Nat.le_refl count.toNat) d.offset
    obtain ⟨k'', hset, -⟩ := setSlot_eq h.slot { d with offset }
    rw [if_neg hend, hr]
    simp only [Fault.of, bind, Except.bind, hset]
    exact ⟨_, rfl⟩

/-! ### Repeated calls -/

/-- The records that the calls have stored. -/
def stored (results : List (Int × List UInt8)) : List (List UInt8 × UInt32) := results.flatMap fun r => dirents r.2

/-- Repeated calls on `fd`, with buffers that each take the record that comes next, list the records `entries` by name
and cluster until a call returns 0. -/
def ListsExactly (k : Kernel) (fd : UInt32) (entries : List DirEntry) : Prop :=
  ∀ (fresh : Nat → UInt32 → ByteMem) (counts : Nat → UInt32),
    (∀ n results k', getdentsCalls fresh counts fd k n = .ok (results, k') →
      ∀ e, entries[(stored results).length]? = some e → sizeofLinuxDirent + e.nameStr.length + 1 ≤ (counts n).toNat) →
    ∃ n results k' k'', getdentsCalls fresh counts fd k n = .ok (results, k') ∧
      (∀ r ∈ results, r.1 ≠ 0 ∧ r.1 = Int.bmod r.2.length (2 ^ 32)) ∧
      sysGetdents (fresh n) k' fd (counts n) = .ok ((0, []), k'') ∧ stored results = entries.map nameAndCluster

variable {fresh : Nat → UInt32 → ByteMem} {counts : Nat → UInt32}

private theorem getdentsCalls_succ {n : Nat} {results : List (Int × List UInt8)} {r : (Int × List UInt8) × Kernel}
    (h : getdentsCalls fresh counts fd k n = .ok (results, k')) (hcall : sysGetdents (fresh n) k' fd (counts n) = .ok r) :
    getdentsCalls fresh counts fd k (n + 1) = .ok (results ++ [r.1], r.2) := by
  rw [getdentsCalls, h]
  simp only [bind, Except.bind, hcall]

/-- What a number of calls has listed, the next ones go on from. -/
private theorem getdentsCalls_spec (h : OpenDir k c fd.toNat d dir) (hs : k.volume.fs.Sound)
    (hch : k.volume.view.Chain dir.startCluster.toNat cs) (hoffset : d.offset = 0) {n : Nat}
    {results : List (Int × List UInt8)} (hcalls : getdentsCalls fresh counts fd k n = .ok (results, k')) :
    ∃ offset : UInt32, OpenDir k' c fd.toNat { d with offset } dir ∧ k'.volume = k.volume ∧
      offset.toNat ≤ (numbered k.volume dir cs).length ∧
      stored results = ((numbered k.volume dir cs).take offset.toNat).map listedAs := by
  induction n generalizing results k' with
  | zero =>
    cases hcalls
    exact ⟨d.offset, h, rfl, by rw [hoffset]; exact Nat.zero_le _, by rw [hoffset]; rfl⟩
  | succ n ih =>
    cases hfirst : getdentsCalls fresh counts fd k n with
    | error f =>
      rw [getdentsCalls, hfirst] at hcalls
      cases hcalls
    | ok r =>
      obtain ⟨results₁, k₁⟩ := r
      obtain ⟨offset, hopen, hvolume, hle, hstored⟩ := ih hfirst
      cases hcall : sysGetdents (fresh n) k₁ fd (counts n) with
      | error f =>
        rw [getdentsCalls, hfirst] at hcalls
        simp only [bind, Except.bind, hcall] at hcalls
        cases hcalls
      | ok r =>
        rw [getdentsCalls_succ hfirst hcall] at hcalls
        obtain ⟨rfl, rfl⟩ := Prod.mk.inj (Except.ok.inj hcalls)
        rw [← hvolume] at hs hch hle hstored ⊢
        obtain ⟨shown, offset', hshown, -, hopen', hvolume'⟩ := sysGetdents_spec hopen hs hch hcall
        refine ⟨offset', hopen', hvolume', hshown.offset_le hle, ?_⟩
        rw [stored, List.flatMap_append, ← stored, hstored, hshown.take_eq, List.map_append]
        simp [hshown.dirents_eq]

/-- The next call is at the end and returns 0, or lists more. -/
private theorem getdentsCalls_next (h : OpenDir k c fd.toNat d dir) (hs : k.volume.fs.Sound)
    (hch : k.volume.view.Chain dir.startCluster.toNat cs) (hoffset : d.offset = 0)
    (hlisted : ∀ e ∈ numbered k.volume dir cs, e.used = true ∧ 0 ∈ e.toBytes) {n : Nat}
    {results : List (Int × List UInt8)} (hcalls : getdentsCalls fresh counts fd k n = .ok (results, k'))
    (hfits : ∀ e, (numbered k.volume dir cs)[(stored results).length]? = some e → recordSize e ≤ (counts n).toNat) :
    (∃ k'', sysGetdents (fresh n) k' fd (counts n) = .ok ((0, []), k'') ∧
        stored results = (numbered k.volume dir cs).map listedAs) ∨
      ∃ r k'', getdentsCalls fresh counts fd k (n + 1) = .ok (results ++ [r], k'') ∧
        (r.1 ≠ 0 ∧ r.1 = Int.bmod r.2.length (2 ^ 32)) ∧
        (stored results).length < (numbered k.volume dir cs).length ∧
        (stored results).length < (stored (results ++ [r])).length := by
  obtain ⟨offset, hopen, hvolume, hle, hstored⟩ := getdentsCalls_spec h hs hch hoffset hcalls
  have hlength : (stored results).length = offset.toNat := by
    rw [hstored, List.length_map, List.length_take, Nat.min_eq_left hle]
  rw [hlength] at hfits
  rw [hlength, ← hvolume]
  rw [← hvolume] at hs hch hle hstored hlisted hfits
  obtain ⟨⟨⟨ret, bytes⟩, k''⟩, hcall⟩ := sysGetdents_defined hopen hs hch hlisted (fresh n) (counts n)
  obtain ⟨shown, offset', hshown, hret, -, -⟩ := sysGetdents_spec hopen hs hch hcall
  have hzero := hshown.bmod_eq_zero_iff (counts n).toNat_lt
  rw [← hret] at hzero
  have hend := hshown.nil_iff_end hfits
  by_cases hnil : bytes = []
  · left
    refine ⟨k'', ?_, ?_⟩
    · rw [hcall, hzero.2 hnil, hnil]
    · rw [hstored, List.take_of_length_le (hend.1 hnil)]
  · right
    have hmore : 0 < shown.length := List.length_pos_of_ne_nil (mt hshown.nil_iff.2 hnil)
    refine ⟨(ret, bytes), k'', getdentsCalls_succ hcalls hcall, ⟨mt hzero.1 hnil, hret⟩,
      Nat.not_le.1 (mt hend.2 hnil), ?_⟩
    rw [stored, List.flatMap_append, ← stored, List.length_append, hlength]
    simpa [hshown.dirents_eq] using hmore

/-- Where every record has a name that ends inside it and fits when it comes next, the calls come to the end. -/
private theorem getdentsCalls_end (h : OpenDir k c fd.toNat d dir) (hs : k.volume.fs.Sound)
    (hch : k.volume.view.Chain dir.startCluster.toNat cs) (hoffset : d.offset = 0)
    (hlisted : ∀ e ∈ numbered k.volume dir cs, e.used = true ∧ 0 ∈ e.toBytes)
    (hfits : ∀ n results k', getdentsCalls fresh counts fd k n = .ok (results, k') →
      ∀ e, (numbered k.volume dir cs)[(stored results).length]? = some e → recordSize e ≤ (counts n).toNat) :
    ∃ n results k' k'', getdentsCalls fresh counts fd k n = .ok (results, k') ∧
      (∀ r ∈ results, r.1 ≠ 0 ∧ r.1 = Int.bmod r.2.length (2 ^ 32)) ∧
      sysGetdents (fresh n) k' fd (counts n) = .ok ((0, []), k'') ∧
      stored results = (numbered k.volume dir cs).map listedAs := by
  -- by induction on the number of records that are left
  have hrest : ∀ left n results k', getdentsCalls fresh counts fd k n = .ok (results, k') →
      (∀ r ∈ results, r.1 ≠ 0 ∧ r.1 = Int.bmod r.2.length (2 ^ 32)) →
      (numbered k.volume dir cs).length ≤ (stored results).length + left →
      ∃ n results k' k'', getdentsCalls fresh counts fd k n = .ok (results, k') ∧
        (∀ r ∈ results, r.1 ≠ 0 ∧ r.1 = Int.bmod r.2.length (2 ^ 32)) ∧
        sysGetdents (fresh n) k' fd (counts n) = .ok ((0, []), k'') ∧
        stored results = (numbered k.volume dir cs).map listedAs := by
    intro left
    induction left with
    | zero =>
      intro n results k' hcalls hresults hleft
      rcases getdentsCalls_next h hs hch hoffset hlisted hcalls (hfits n results k' hcalls) with hend | hmore
      · obtain ⟨k'', hcall, hstored⟩ := hend
        exact ⟨n, results, k', k'', hcalls, hresults, hcall, hstored⟩
      · obtain ⟨-, -, -, -, hlt, -⟩ := hmore
        omega
    | succ left ih =>
      intro n results k' hcalls hresults hleft
      rcases getdentsCalls_next h hs hch hoffset hlisted hcalls (hfits n results k' hcalls) with hend | hmore
      · obtain ⟨k'', hcall, hstored⟩ := hend
        exact ⟨n, results, k', k'', hcalls, hresults, hcall, hstored⟩
      · obtain ⟨r, k'', hcalls', hr, -, hlt⟩ := hmore
        refine ih (n + 1) _ k'' hcalls' ?_ (by omega)
        intro r' hr'
        rcases List.mem_append.1 hr' with hr' | hr'
        · exact hresults r' hr'
        · rw [List.mem_singleton.1 hr']
          exact hr
  exact hrest _ 0 [] k rfl (by simp) (Nat.le_add_left _ _)

/-- A name that is listed right ends inside its record. -/
theorem zero_mem_of_listedAs {e : DirEntry} (h : listedAs e = nameAndCluster e) : 0 ∈ e.toBytes := by
  obtain ⟨u, hu⟩ := (DirEntry.toBytes_eq_append_iff e.noNul_nameStr e.length_nameStr_le).2
    ⟨rfl, (listedAs_eq_iff e).1 h⟩
  rw [hu]
  simp

/-- Repeated calls list exactly what the numbers of the directory stand for. -/
private theorem listsExactly_iff_numbered (h : OpenDir k c fd.toNat d dir) (hs : k.volume.fs.Sound)
    (hch : k.volume.view.Chain dir.startCluster.toNat cs) (hoffset : d.offset = 0) :
    ListsExactly k fd ((k.volume.view.records cs).filter DirEntry.used) ↔
      (numbered k.volume dir cs).map listedAs =
        ((k.volume.view.records cs).filter DirEntry.used).map nameAndCluster := by
  constructor
  · intro hexact
    -- with buffers of 64 bytes every record fits
    obtain ⟨n, results, k', k'', hcalls, -, hcall, hstored⟩ := hexact (fun _ _ _ => 0) (fun _ => 64) fun _ _ _ _ e _ => by
      have := e.length_nameStr_le
      rw [sizeofLinuxDirent]
      show _ ≤ 64
      omega
    obtain ⟨offset, hopen, hvolume, hle, hstored'⟩ := getdentsCalls_spec h hs hch hoffset hcalls
    rw [← hvolume] at hs hch
    obtain ⟨shown, offset', hshown, -⟩ := sysGetdents_spec hopen hs hch hcall
    have hend := (hshown.nil_iff_end fun e _ => by
      have := (List.takeWhile_prefix (· ≠ 0) (l := e.toBytes)).length_le
      rw [DirEntry.length_toBytes] at this
      rw [recordSize, sizeofLinuxDirent, cstr]
      show _ ≤ 64
      omega).1 rfl
    rw [hvolume] at hend
    rw [← hstored, hstored', List.take_of_length_le hend]
  · intro heq fresh counts hlarge
    have hmem : ∀ e ∈ numbered k.volume dir cs, ∃ e', e'.used = true ∧ listedAs e = nameAndCluster e' := by
      intro e he
      have hin : listedAs e ∈ ((k.volume.view.records cs).filter DirEntry.used).map nameAndCluster := by
        rw [← heq]
        exact List.mem_map_of_mem he
      obtain ⟨e', he', hname⟩ := List.mem_map.1 hin
      exact ⟨e', (List.mem_filter.1 he').2, hname.symm⟩
    have hright := ((Cursor.map_listed_eq_iff (fun _ _ => used_of_listedAs) _).1 heq).2
    have hlisted : ∀ e ∈ numbered k.volume dir cs, e.used = true ∧ 0 ∈ e.toBytes := by
      intro e he
      obtain ⟨e', hused, hname⟩ := hmem e he
      have hused' := used_of_listedAs hused hname
      exact ⟨hused', zero_mem_of_listedAs (hright e (Cursor.mem_of_mem_listed he) hused')⟩
    rw [← heq]
    refine getdentsCalls_end h hs hch hoffset hlisted fun n results k' hcalls e he => ?_
    -- the record at this place has the name of the entry at this place
    have hplace := congrArg (fun l => l[(stored results).length]?) heq
    simp only [List.getElem?_map, he, Option.map_some] at hplace
    obtain ⟨e', he', hname⟩ := Option.map_eq_some_iff.1 hplace.symm
    have hsame : e'.nameStr = cstr e.toBytes := congrArg Prod.fst hname
    have := hlarge n results k' hcalls e' he'
    rwa [hsame] at this

/-- Repeated calls list the used slots, each once, in order and nothing else, exactly when these stand in front of the
unused ones, the size of the directory ends the listing behind them, and no name of 11 bytes runs into an attribute. -/
theorem listsExactly_iff (h : OpenDir k c fd.toNat d dir) (hs : k.volume.fs.Sound)
    (hch : k.volume.view.Chain dir.startCluster.toNat cs) (hoffset : d.offset = 0) :
    ListsExactly k fd ((k.volume.view.records cs).filter DirEntry.used) ↔
      Cursor.Exact DirEntry.used dir.fileSize.toNat (k.volume.view.records cs) ∧
        ∀ e ∈ k.volume.view.records cs, e.used = true → e.nameStr.length = 11 → e.attr = 0 := by
  rw [listsExactly_iff_numbered h hs hch hoffset, numbered, Cursor.map_listed_eq_iff fun _ _ => used_of_listedAs]
  simp only [listedAs_eq_iff]

/-- A directory `d` with its aliases in cluster 2. -/
def oneDirectory : DirEntry :=
  { DirEntry.zero with name := DirEntry.nameOf [0x64], attr := Fat.attrDirectory, startCluster := 2, fileSize := 2 }

def oneDirectoryDisk : ByteMem :=
  Fat.image [0xFFF8, 0xFFFF, 0xFFF8] fun c =>
    if c = 0 then oneDirectory.toBytes
    else if c = 2 then (Volume.dotEntry [Fat.dot] 2).toBytes ++ (Volume.dotEntry [Fat.dot, Fat.dot] 0).toBytes
    else []

/-- The first process opens `/` or `/d`: the cluster, the size, the number of used slots and the number of records. -/
theorem open_directory {path : List UInt8} {cluster size used records : Nat}
    (hpath : (path, cluster, size, used, records) = ([Fat.slash], 0, 512, 1, 2) ∨
      (path, cluster, size, used, records) = ([Fat.slash, 0x64], 2, 2, 2, 2)) :
    ∃ v k₀ k k' d dir, boot v = .ok k₀ ∧ Machine.Run exec (fun _ _ => True) k₀ startup k ∧
      k.perform (.open (fun _ _ => 0) path O_DIRECTORY) = .ok (some 3, k') ∧
      OpenDir k' 10 (3 : UInt32).toNat d dir ∧ d.offset = 0 ∧ k'.volume.fs.Sound ∧
      k'.volume.view.Chain dir.startCluster.toNat [cluster] ∧ dir.fileSize.toNat = size ∧
      (∀ e ∈ (k'.volume.view.records [cluster]).take used, e.used = true) ∧
      (∀ e ∈ (k'.volume.view.records [cluster]).drop used, e.used = false) ∧
      (∀ e ∈ k'.volume.view.records [cluster], e.nameStr.length ≠ 11) ∧
      ((k'.volume.view.records [cluster]).filter DirEntry.used).length = used ∧
      (numbered k'.volume dir [cluster]).length = records := by
  have hrun : ((Fat.fatInit (some fun _ => 0) oneDirectoryDisk).bind fun mounted => mounted.bind fun v =>
      (startup.foldlM exec ⟨Manager.boot, Vector.ofFn fun g => bootEntry g, v⟩).bind fun k =>
        (k.perform (.open (fun _ _ => 0) path O_DIRECTORY)).toOption.bind fun r =>
          (r.2.slotAt 10 3).bind fun d => (r.2.globalFdTable[6]?).map fun x =>
            (decide (r.1 = some 3 ∧ r.2.manager.currentProcess = some 10 ∧ d.globalFd = some 6 ∧ d.isUsed = true ∧
                hasFlag d.flags O_DIRECTORY = true ∧ d.offset = 0),
              decide (r.2.volume.fs.bytesPerSector = 512 ∧ r.2.volume.fs.sectorsPerCluster = 1 ∧
                r.2.volume.fs.numFats = 1 ∧ r.2.volume.fs.totalFatEntries = 256) &&
              r.2.volume.view.isChain x.file.fileEntry.startCluster.toNat [cluster],
              (((r.2.volume.view.records [cluster]).take used).all fun e => e.used) &&
              (((r.2.volume.view.records [cluster]).drop used).all fun e => !e.used) &&
              (r.2.volume.view.records [cluster]).all fun e => e.nameStr.length ≠ 11,
            [x.file.fileEntry.fileSize.toNat, ((r.2.volume.view.records [cluster]).filter DirEntry.used).length,
              (numbered r.2.volume x.file.fileEntry [cluster]).length])) =
      some (true, true, true, [size, used, records]) := by
    obtain h | h := hpath
    · cases h
      decide +kernel
    · cases h
      decide +kernel
  simp only [Option.bind_eq_some_iff, Option.map_eq_some_iff, Prod.mk.injEq, Bool.and_eq_true, decide_eq_true_eq,
    List.all_eq_true, Bool.not_eq_true', List.cons.injEq, and_true] at hrun
  obtain ⟨_, -, v, rfl, k, hk, ⟨r, k'⟩, hopen, d, hd, x, hx, ⟨rfl, hcurrent, hglobal, hused, hflag, hoffset⟩,
    ⟨⟨hsector, hcluster, hfats, hentries⟩, hchain⟩, ⟨⟨hfront, hbehind⟩, hnames⟩, hsize, hcount, hrecords⟩ := hrun
  exact ⟨v, _, k, k', d, x.file.fileEntry, boot_eq v, Machine.run_iff_foldlM.2 hk, eq_ok_of_toOption hopen,
    ⟨hcurrent, hd, hused, hflag, 6, x, hglobal, hx, rfl⟩, hoffset,
    ⟨hsector, hcluster.ge, hfats.ge, by rw [hentries]; decide⟩, Fat.View.chain_of_isChain hchain, hsize, hfront, hbehind,
    hnames, hcount, hrecords⟩

/-- The listing of the root directory with one record in it shows the unused slot behind it too. -/
theorem not_listed : ∃ v k₀ k k' d dir, boot v = .ok k₀ ∧ Machine.Run exec (fun _ _ => True) k₀ startup k ∧
    k.perform (.open (fun _ _ => 0) [Fat.slash] O_DIRECTORY) = .ok (some 3, k') ∧
    OpenDir k' 10 (3 : UInt32).toNat d dir ∧ d.offset = 0 ∧ k'.volume.view.Chain dir.startCluster.toNat [0] ∧
    ¬ListsExactly k' 3 ((k'.volume.view.records [0]).filter DirEntry.used) := by
  obtain ⟨v, k₀, k, k', d, dir, h₀, hrun, hopen, hdir, hoffset, hs, hch, -, -, -, -, hused, hrecords⟩ :=
    open_directory (Or.inl rfl)
  refine ⟨v, k₀, k, k', d, dir, h₀, hrun, hopen, hdir, hoffset, hch, ?_⟩
  rw [listsExactly_iff_numbered hdir hs hch hoffset]
  intro heq
  have hlength := congrArg List.length heq
  rw [List.length_map, List.length_map, hused, hrecords] at hlength
  cases hlength

/-- `listsExactly_iff` for a directory that holds its aliases only. -/
theorem listed_oneDirectory : ∃ v k₀ k k', boot v = .ok k₀ ∧ Machine.Run exec (fun _ _ => True) k₀ startup k ∧
    k.perform (.open (fun _ _ => 0) [Fat.slash, 0x64] O_DIRECTORY) = .ok (some 3, k') ∧
    ListsExactly k' 3 ((k'.volume.view.records [2]).filter DirEntry.used) := by
  obtain ⟨v, k₀, k, k', d, dir, h₀, hrun, hopen, hdir, hoffset, hs, hch, hsize, hfront, hbehind, hnames, -⟩ :=
    open_directory (Or.inr rfl)
  refine ⟨v, k₀, k, k', h₀, hrun, hopen, (listsExactly_iff hdir hs hch hoffset).2 ⟨?_, ?_⟩⟩
  · rw [hsize]
    exact ⟨2, Nat.le_refl 2, hfront, hbehind, .inl rfl⟩
  · intro e he _ hlength
    exact absurd hlength (hnames e he)

end Kernel

end DBolOS.Vfs
