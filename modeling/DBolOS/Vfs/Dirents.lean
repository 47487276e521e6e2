import DBolOS.Vfs.Access
import DBolOS.Vfs.Listing

/-!
# The records of a listing

The header gives the last byte of a record as the type of the entry.  `_getdents` stores the type in the byte before it,
and copies the last byte as the block of the heap holds it, so that what it stores decodes only where it stores no record
(`decodes_iff`).
-/

namespace DBolOS.Vfs

open Failing
open Fat (DirEntry Volume)
open Proc (FileDescriptor)

/-! ### Records with their types -/

/-- The type of an entry. -/
def typeOf (e : DirEntry) : UInt8 := if e.isDirectory then DT_DIR else DT_REG

/-- The inode numbers, names and types in a buffer, each record found behind the one before by its length, and the type in
the last byte of each. -/
def readTyped : Nat → List UInt8 → List (UInt32 × List UInt8 × UInt8)
  | 0, _ => []
  | n + 1, bytes =>
    if bytes = [] then []
    else
      let b := fun i => bytes.getD i 0
      let reclen := (ByteMem.ofLe16 (b 8) (b 9)).toNat
      (ByteMem.ofLe32 (b 0) (b 1) (b 2) (b 3), cstr (bytes.drop dNameOffset), b (reclen - 1)) ::
        readTyped n (bytes.drop reclen)

def typedDirents (bytes : List UInt8) : List (UInt32 × List UInt8 × UInt8) := readTyped bytes.length bytes

/-- A record by its cluster, its name and its type. -/
def typedAs (e : DirEntry) : UInt32 × List UInt8 × UInt8 := (e.startCluster.toUInt32, e.nameStr, typeOf e)

private theorem typeOf_ne_zero (e : DirEntry) : typeOf e ≠ 0 := by
  unfold typeOf
  split
  · decide
  · decide

/-- `strcpy` ends what it stores. -/
private theorem getLast?_strcpy {s t : List UInt8} (h : strcpy s = some t) : t.getLast? = some 0 := by
  induction s generalizing t with
  | nil => cases h
  | cons a s ih =>
    cases s with
    | nil => cases h
    | cons b s =>
      rw [strcpy] at h
      split at h
      · cases h
        rfl
      · obtain ⟨u, hu, rfl⟩ := Option.map_eq_some_iff.1 h
        rw [List.getLast?_cons, ih hu]
        rfl

/-- The last byte of a record in a block of zeros is zero. -/
private theorem linuxDirent_last {e : DirEntry} {dOff : UInt32} {nameLen : Nat} {tmp : List UInt8}
    (h : linuxDirent (fun _ => 0) e dOff nameLen = some tmp) : tmp[nameLen + 12]? = some 0 := by
  simp only [linuxDirent, Option.bind_eq_bind, Option.bind_eq_some_iff] at h
  obtain ⟨name, hname, h⟩ := h
  split at h
  · cases h
  rename_i hfits
  cases h
  rw [sizeofLinuxDirent, dNameOffset] at *
  obtain ⟨header, hheader⟩ : ∃ header, header = ByteMem.le32 e.startCluster.toUInt32 ++ ByteMem.le32 dOff ++
      ByteMem.le16 (UInt16.ofNat (12 + nameLen + 1)) := ⟨_, rfl⟩
  have hten : header.length = 10 := by
    rw [hheader]
    rfl
  obtain ⟨block, hblock⟩ : ∃ block, block = ByteMem.readBytes (fun _ => 0) 0 (12 + nameLen + 1) := ⟨_, rfl⟩
  have hlength : block.length = 12 + nameLen + 1 := by rw [hblock, ByteMem.length_readBytes]
  have hfirst : (ByteMem.splice block 0 header).length = 12 + nameLen + 1 := by
    rw [ByteMem.length_splice (by omega), hlength]
  have hsecond : (ByteMem.splice (ByteMem.splice block 0 header) 10 name).length = 12 + nameLen + 1 := by
    rw [ByteMem.length_splice (by omega), hfirst]
  rw [← hheader, ← hblock, ByteMem.getElem?_splice (by simp; omega), if_neg (by simp; omega),
    ByteMem.getElem?_splice (by omega)]
  split
  · rename_i hlast
    -- the byte is the terminator of the name
    have hget := getLast?_strcpy hname
    rw [List.getLast?_eq_getElem?] at hget
    rw [← hget]
    congr 1
    omega
  · rw [ByteMem.getElem?_splice (by omega), if_neg (by omega), hblock, ByteMem.readBytes]
    simp [List.getElem?_replicate]
    omega

/-! ### A call -/

/-- A call at `offset` stores no record: it is at the end of the directory, the buffer takes nothing, the driver refuses
the entry, or its record does not fit. -/
def StoresNothing (v : Volume) (dir : DirEntry) (offset count : UInt32) : Prop :=
  dir.fileSize ≤ offset ∨ count = 0 ∨ (∃ r, v.fatGetDirEntry dir offset.toNat = some (.error r)) ∨
    ∃ e nameLen, v.fatGetDirEntry dir offset.toNat = some (.ok e) ∧ strlen e.toBytes = some nameLen ∧
      count.toNat < nameLen + 13

section Loop

variable {fresh : UInt32 → ByteMem} {v : Volume} {dir : DirEntry} {offset offset' : UInt32} {err : Option Int}
  {bytes : List UInt8}

private theorem getdentsLoop_storesNothing {count : UInt32} (h : StoresNothing v dir offset count)
    (hend : ¬dir.fileSize ≤ offset) :
    ∃ err, ∀ fresh, getdentsLoop fresh v dir count.toNat offset count.toNat = some (err, [], offset) := by
  by_cases hcount : count.toNat = 0
  · exact ⟨none, fun fresh => by rw [hcount, getdentsLoop, if_pos rfl]⟩
  obtain ⟨n, hn⟩ : ∃ n, count.toNat = n + 1 := ⟨count.toNat - 1, by omega⟩
  rcases h with h | rfl | ⟨r, hr⟩ | ⟨e, nameLen, he, hlen, hfull⟩
  · exact absurd h hend
  · exact absurd rfl hcount
  · refine ⟨if r = Fat.FILE_NOT_FOUND then none else some r, fun fresh => ?_⟩
    rw [hn, getdentsLoop, if_neg (Nat.succ_ne_zero n), if_neg hend, hr]
    rfl
  · refine ⟨none, fun fresh => ?_⟩
    rw [hn] at hfull ⊢
    rw [getdentsLoop, if_neg (Nat.succ_ne_zero n), if_neg hend, he]
    simp only [Option.bind_eq_bind, Option.bind_some, hlen]
    rw [if_pos (by rw [sizeofLinuxDirent]; omega)]

private theorem getdentsLoop_first {n count : Nat} (hcount : count ≠ 0) (hend : ¬dir.fileSize ≤ offset)
    (h : getdentsLoop fresh v dir n offset count = some (err, bytes, offset')) :
    (∃ r, v.fatGetDirEntry dir offset.toNat = some (.error r)) ∨
      ∃ e nameLen, v.fatGetDirEntry dir offset.toNat = some (.ok e) ∧ strlen e.toBytes = some nameLen ∧
        (count < nameLen + 13 ∨
          ∃ tmp more, linuxDirent (fresh offset) e offset nameLen = some tmp ∧ bytes = tmp ++ more) := by
  cases n with
  | zero =>
    rw [getdentsLoop, if_neg hcount] at h
    cases h
  | succ n =>
    rw [getdentsLoop, if_neg hcount, if_neg hend] at h
    obtain ⟨r, hr, h⟩ := Option.bind_eq_some_iff.1 h
    cases r with
    | error r => exact .inl ⟨r, hr⟩
    | ok e =>
      obtain ⟨nameLen, hlen, h⟩ := Option.bind_eq_some_iff.1 h
      refine .inr ⟨e, nameLen, hr, hlen, ?_⟩
      dsimp only at h
      split at h
      · rename_i hfull
        rw [sizeofLinuxDirent] at hfull
        exact .inl (by omega)
      · obtain ⟨tmp, htmp, h⟩ := Option.bind_eq_some_iff.1 h
        obtain ⟨⟨err', more, offset''⟩, -, h⟩ := Option.bind_eq_some_iff.1 h
        cases h
        exact .inr ⟨tmp, more, htmp, rfl⟩

end Loop

/-- A record with zeros behind its type does not give its type in its last byte. -/
private theorem typedDirents_linuxDirent {e : DirEntry} {dOff : UInt32} {nameLen : Nat} {tmp : List UInt8}
    (hlen : strlen e.toBytes = some nameLen) (h : linuxDirent (fun _ => 0) e dOff nameLen = some tmp) (more : List UInt8) :
    ∃ r records, typedDirents (tmp ++ more) = r :: records ∧ r.2.2 = 0 := by
  obtain ⟨u, hu, hname, heq⟩ := linuxDirent_spec hlen h
  have hlast := linuxDirent_last h
  have hsize : nameLen ≤ 32 := by
    have := (List.takeWhile_prefix (· ≠ 0) (l := e.toBytes)).length_le
    rw [DirEntry.length_toBytes] at this
    rw [← hname]
    exact this
  have htmpLen : tmp.length = nameLen + 13 := (readDirents_linuxDirent hlen h 0 []).1
  obtain ⟨n, hn⟩ : ∃ n, (tmp ++ more).length = n + 1 := ⟨nameLen + 12 + more.length, by
    rw [List.length_append, htmpLen]
    omega⟩
  have hreclen : (ByteMem.ofLe16 ((tmp ++ more).getD 8 0) ((tmp ++ more).getD 9 0)).toNat = nameLen + 13 := by
    rw [heq]
    simp only [ByteMem.le32, ByteMem.le16, List.cons_append, List.nil_append, List.getD_cons_zero,
      List.getD_cons_succ, ByteMem.ofLe16_le16]
    rw [UInt16.toNat_ofNat']
    omega
  rw [typedDirents, hn, readTyped, if_neg (List.ne_nil_of_length_pos (by omega))]
  refine ⟨_, _, rfl, ?_⟩
  dsimp only
  have hpred : nameLen + 13 - 1 = nameLen + 12 := by omega
  rw [hreclen, hpred, List.getD_eq_getElem?_getD, List.getElem?_append_left (by omega), hlast, Option.getD_some]

namespace Kernel

variable {k k' : Kernel} {c : Nat} {fd : UInt32} {d : FileDescriptor} {dir : DirEntry}

/-- What a call on `fd` stores decodes, whatever the blocks of the heap hold, to the records `es` of the directory from the
offset on, and the offset moves behind them. -/
structure StoresRecords (k : Kernel) (c : Nat) (fd : UInt32) (d : FileDescriptor) (dir : DirEntry) (count : UInt32)
    (bytes : List UInt8) (es : List DirEntry) : Prop where
  call : ∀ fresh, ∃ ret k' d', sysGetdents fresh k fd count = .ok ((ret, bytes), k') ∧
    k'.slotAt c fd.toNat = some d' ∧ d'.offset.toNat = d.offset.toNat + es.length
  records : ∀ i e, es[i]? = some e → k.volume.fatGetDirEntry dir (d.offset.toNat + i) = some (.ok e)
  decoded : typedDirents bytes = es.map typedAs

/-- A call that stores a record does not decode: with zeros in its block the record has no type. -/
private theorem StoresRecords.storesNothing (h : OpenDir k c fd.toNat d dir) {count : UInt32} {bytes : List UInt8}
    {es : List DirEntry} (hstores : StoresRecords k c fd d dir count bytes es) :
    StoresNothing k.volume dir d.offset count := by
  by_cases hend : dir.fileSize ≤ d.offset
  · exact .inl hend
  by_cases hcount : count.toNat = 0
  · exact .inr (.inl (UInt32.toNat_inj.1 hcount))
  -- a call with blocks of zeros
  obtain ⟨ret, k', d', hcall, hslot, hmoved⟩ := hstores.call fun _ _ => 0
  rw [sysGetdents_eq h, if_neg hend] at hcall
  cases hloop : getdentsLoop (fun _ _ => 0) k.volume dir count.toNat d.offset count.toNat with
  | none =>
    rw [hloop, Fault.of, error_bind] at hcall
    cases hcall
  | some r =>
    obtain ⟨err, bytes', offset⟩ := r
    obtain ⟨k'', hset, -⟩ := setSlot_eq h.slot { d with offset }
    rw [hloop, Fault.of, ok_bind] at hcall
    dsimp only at hcall
    rw [hset, ok_bind] at hcall
    obtain ⟨hret, rfl⟩ := Prod.mk.inj (Except.ok.inj hcall)
    obtain ⟨-, rfl⟩ := Prod.mk.inj hret
    rcases getdentsLoop_first hcount hend hloop with herror | ⟨e, nameLen, he, hlen, hfull | ⟨tmp, more, htmp, rfl⟩⟩
    · exact .inr (.inr (.inl herror))
    · exact .inr (.inr (.inr ⟨e, nameLen, he, hlen, hfull⟩))
    · obtain ⟨r, records, htyped, hzero⟩ := typedDirents_linuxDirent hlen htmp more
      have hdecoded := hstores.decoded
      rw [htyped] at hdecoded
      cases es with
      | nil => cases hdecoded
      | cons e' es =>
        rw [List.map_cons, List.cons.injEq] at hdecoded
        rw [hdecoded.1] at hzero
        exact absurd hzero (typeOf_ne_zero e')

private theorem storesRecords_nil (h : OpenDir k c fd.toNat d dir) {count : UInt32}
    (hnothing : StoresNothing k.volume dir d.offset count) : StoresRecords k c fd d dir count [] [] := by
  by_cases hend : dir.fileSize ≤ d.offset
  · refine ⟨fun fresh => ⟨0, k, d, ?_, h.slot, rfl⟩, by simp, rfl⟩
    rw [sysGetdents_eq h, if_pos hend]
  · obtain ⟨err, hloop⟩ := getdentsLoop_storesNothing hnothing hend
    obtain ⟨k', hk', hslot, -⟩ := setSlot_eq h.slot { d with offset := d.offset }
    refine ⟨fun fresh => ⟨err.getD 0, k', d, ?_, hslot, rfl⟩, by simp, rfl⟩
    rw [sysGetdents_eq h, if_neg hend, hloop, Fault.of, ok_bind]
    dsimp only
    rw [hk', ok_bind]
    rfl

/-- A call decodes to the records of the directory exactly when it stores none. -/
theorem decodes_iff (h : OpenDir k c fd.toNat d dir) (count : UInt32) :
    (∃ bytes es, StoresRecords k c fd d dir count bytes es) ↔ StoresNothing k.volume dir d.offset count := by
  constructor
  · rintro ⟨bytes, es, hstores⟩
    exact hstores.storesNothing h
  · intro hnothing
    exact ⟨[], [], storesRecords_nil h hnothing⟩

/-- A process opens `/d`, and the call on it looks at a record of 14 bytes. -/
private theorem open_aliases : ∃ v k₀ k k' d dir e nameLen, boot v = .ok k₀ ∧
    Machine.Run exec (fun _ _ => True) k₀ startup k ∧
    k.perform (.open (fun _ _ => 0) [Fat.slash, 0x64] O_DIRECTORY) = .ok (some 3, k') ∧
    OpenDir k' 10 (3 : UInt32).toNat d dir ∧ ¬dir.fileSize ≤ d.offset ∧
    k'.volume.fatGetDirEntry dir d.offset.toNat = some (.ok e) ∧ strlen e.toBytes = some nameLen ∧ nameLen < 11 := by
  obtain ⟨v, k₀, k, k', d, dir, h₀, hrun, hopen, hdir, hoffset, hs, hch, hsize, -, -, hnames, -, hcount⟩ :=
    open_directory (Or.inr rfl)
  have hlt : d.offset.toNat < (numbered k'.volume dir [2]).length := by
    rw [hcount, hoffset]
    decide
  obtain ⟨e, he⟩ : ∃ e, (numbered k'.volume dir [2])[d.offset.toNat]? = some e := ⟨_, List.getElem?_eq_getElem hlt⟩
  have hshort := hnames e (Cursor.mem_of_mem_listed (List.mem_of_getElem? he))
  have hlisted : listedAs e = nameAndCluster e := (listedAs_eq_iff e).2 fun hlength => absurd hlength hshort
  have hname : cstr e.toBytes = e.nameStr := congrArg Prod.fst hlisted
  have hle := e.length_nameStr_le
  refine ⟨v, k₀, k, k', d, dir, e, e.nameStr.length, h₀, hrun, hopen, hdir, ?_, ?_, ?_, by omega⟩
  · rw [hoffset, UInt32.le_iff_toNat_le, hsize]
    decide
  · rw [Volume.fatGetDirEntry_spec hs hch, ← numbered, he]
  · rw [strlen_eq, if_pos (zero_mem_of_listedAs hlisted), hname]

/-- The first record of `/d` does not decode. -/
theorem not_decodes : ∃ v k₀ k k' d dir, boot v = .ok k₀ ∧ Machine.Run exec (fun _ _ => True) k₀ startup k ∧
    k.perform (.open (fun _ _ => 0) [Fat.slash, 0x64] O_DIRECTORY) = .ok (some 3, k') ∧
    OpenDir k' 10 (3 : UInt32).toNat d dir ∧ ¬∃ bytes es, StoresRecords k' 10 3 d dir 64 bytes es := by
  obtain ⟨v, k₀, k, k', d, dir, e, nameLen, h₀, hrun, hopen, hdir, hend, he, hlen, hshort⟩ := open_aliases
  refine ⟨v, k₀, k, k', d, dir, h₀, hrun, hopen, hdir, ?_⟩
  rintro ⟨bytes, es, hstores⟩
  rcases hstores.storesNothing hdir with h | h | ⟨r, h⟩ | ⟨e', nameLen', he', hlen', hfull⟩
  · exact hend h
  · cases h
  · rw [he] at h
    cases h
  · rw [he] at he'
    cases he'
    rw [hlen] at hlen'
    cases hlen'
    change 64 < nameLen + 13 at hfull
    omega

/-- `decodes_iff` for a buffer that is too small for a record. -/
theorem decodes_smallBuffer : ∃ v k₀ k k' d dir, boot v = .ok k₀ ∧ Machine.Run exec (fun _ _ => True) k₀ startup k ∧
    k.perform (.open (fun _ _ => 0) [Fat.slash, 0x64] O_DIRECTORY) = .ok (some 3, k') ∧
    OpenDir k' 10 (3 : UInt32).toNat d dir ∧ ∃ bytes es, StoresRecords k' 10 3 d dir 5 bytes es := by
  obtain ⟨v, k₀, k, k', d, dir, e, nameLen, h₀, hrun, hopen, hdir, -, he, hlen, -⟩ := open_aliases
  refine ⟨v, k₀, k, k', d, dir, h₀, hrun, hopen, hdir, (decodes_iff hdir 5).2 ?_⟩
  refine .inr (.inr (.inr ⟨e, nameLen, he, hlen, ?_⟩))
  change 5 < nameLen + 13
  omega

end Kernel

end DBolOS.Vfs
