import DBolOS.Fat.Tree

/-!
# The contents of a file

The contents of a file are the clusters of its chain one after the other (`View.bytes`).  `fat_read` returns a piece of
them, and the copying loop of `fat_write` overwrites a piece; both walk the chain to the cluster of the offset first.
-/

namespace DBolOS.Fat

open ByteMem

namespace View

/-- The clusters `cs` one after the other. -/
def bytes (s : View) (cs : List Nat) : List UInt8 := cs.flatMap s.data

@[simp] theorem bytes_nil (s : View) : s.bytes [] = [] := rfl

@[simp] theorem bytes_cons (s : View) (c : Nat) (cs : List Nat) : s.bytes (c :: cs) = s.data c ++ s.bytes cs := rfl

variable {s s' : View} {start : Nat} {cs : List Nat}

theorem bytes_congr (h : ∀ c ∈ cs, s'.data c = s.data c) : s'.bytes cs = s.bytes cs := List.flatMap_congr h

private theorem bytesPerCluster_eq (hs : s.Sized) : s.fs.bytesPerCluster = 512 * s.fs.sectorsPerCluster := by
  rw [Fat16Fs.bytesPerCluster, hs.sound.sector]

theorem bytesPerCluster_pos (hs : s.Sized) : 0 < s.fs.bytesPerCluster := by
  rw [bytesPerCluster_eq hs]
  exact Nat.mul_pos (by decide) hs.sound.cluster

theorem length_bytes (hs : s.Sized) (hcs : ∀ c ∈ cs, c < s.fat.length) :
    (s.bytes cs).length = cs.length * s.fs.bytesPerCluster := by
  induction cs with
  | nil => simp
  | cons c cs ih =>
    have hlen : (s.data c).length = s.fs.bytesPerCluster := by
      rw [hs.cluster c (hcs c (by simp)), bytesPerCluster_eq hs]
    rw [bytes_cons, List.length_append, ih fun d hd => hcs d (by simp [hd]), hlen, List.length_cons, Nat.succ_mul,
      Nat.add_comm]

/-- The contents from the `i`-th cluster on. -/
private theorem bytes_drop (hs : s.Sized) (hcs : ∀ c ∈ cs, c < s.fat.length) (i : Nat) :
    s.bytes (cs.drop i) = (s.bytes cs).drop (i * s.fs.bytesPerCluster) := by
  induction i generalizing cs with
  | zero => simp
  | succ i ih =>
    cases cs with
    | nil => simp
    | cons c cs =>
      have hlen : (s.data c).length = s.fs.bytesPerCluster := by
        rw [hs.cluster c (hcs c (by simp)), bytesPerCluster_eq hs]
      rw [List.drop_succ_cons, ih fun d hd => hcs d (by simp [hd]), bytes_cons, Nat.succ_mul, Nat.add_comm,
        ← List.drop_drop, List.drop_left' hlen]

/-- The return value and the bytes of `fat_read` on a file of `fileSize` bytes with the clusters `cs`. -/
def read (s : View) (cs : List Nat) (fileSize offset size : Nat) : Int × List UInt8 :=
  if fileSize ≤ offset then (0, [])
  else
    let size := if fileSize < (offset + size) % 2 ^ 32 then fileSize - offset else size
    let bytes := ((s.bytes cs).drop offset).take size
    (Int.bmod bytes.length (2 ^ 32), bytes)

theorem read_congr (h : ∀ c ∈ cs, s'.data c = s.data c) (fileSize offset size : Nat) :
    s'.read cs fileSize offset size = s.read cs fileSize offset size := by
  unfold read
  rw [bytes_congr h]

end View

namespace Volume

variable {v w : Volume} {start : Nat} {cs : List Nat}

/-! ### Walking to the offset -/

/-- A cluster of a chain that is not the root's is no end marker and not 0. -/
private theorem not_end_of_mem (hs : v.fs.Sound) (h : v.view.Chain start cs) (hzero : 0 ∉ cs) {c : Nat} (hc : c ∈ cs) :
    ¬ (clusterChainEnd.toNat ≤ c ∨ c = 0) := by
  have hlt : c < v.fs.totalFatEntries := v.fatTable_length ▸ View.Chain.lt_length h hc
  have hmax := hs.entries
  have hend : clusterChainEnd.toNat = 0xFFF8 := rfl
  rintro (hle | rfl)
  · omega
  · exact hzero hc

/-- Reading walks to the `n`-th cluster of the chain. -/
private theorem readSeek_spec (hs : v.fs.Sound) (h : v.view.Chain start cs) (hzero : 0 ∉ cs) {n : Nat}
    (hn : n < cs.length) :
    v.readSeek n start = some cs[n]? := by
  induction n generalizing start cs with
  | zero =>
    obtain ⟨t, rfl⟩ := h.exists_cons
    rfl
  | succ n ih =>
    rcases chain_cases h with ⟨rfl, _⟩ | ⟨x, t, rfl, hx, _, _, ht⟩
    · simp at hn
    · rw [readSeek, if_neg (not_end_of_mem hs h hzero h.mem_head), hx]
      exact ih ht (fun h0 => hzero (by simp [h0])) (by simpa using hn)

/-- Writing walks to the `n`-th cluster of the chain. -/
theorem writeSeek_spec (hs : v.fs.Sound) (h : v.view.Chain start cs) {n : Nat} (hn : n < cs.length) :
    v.writeSeek n start = some cs[n]? := by
  induction n generalizing start cs with
  | zero =>
    obtain ⟨t, rfl⟩ := h.exists_cons
    rfl
  | succ n ih =>
    rcases chain_cases h with ⟨rfl, _⟩ | ⟨x, t, rfl, hx, _, _, ht⟩
    · simp at hn
    · have hlt : start < v.fs.totalFatEntries := v.fatTable_length ▸ View.Chain.lt_length h h.mem_head
      have hmax := hs.entries
      have hend : clusterChainEnd.toNat = 0xFFF8 := rfl
      rw [writeSeek, if_neg (by omega), hx]
      exact ih ht (by simpa using hn)

/-- Walking to the link of the last cluster is defined, too. -/
theorem writeSeek_isSome (hs : v.fs.Sound) (h : v.view.Chain start cs) {n : Nat} (hn : n ≤ cs.length) :
    ∃ o, v.writeSeek n start = some o := by
  induction n generalizing start cs with
  | zero => exact ⟨_, rfl⟩
  | succ n ih =>
    have hlt : start < v.fs.totalFatEntries := v.fatTable_length ▸ View.Chain.lt_length h h.mem_head
    have hmax := hs.entries
    have hend : clusterChainEnd.toNat = 0xFFF8 := rfl
    rcases chain_cases h with ⟨rfl, x, hx, _⟩ | ⟨x, t, rfl, hx, _, _, ht⟩
    · obtain rfl : n = 0 := by simpa using hn
      exact ⟨some x.toNat, by rw [writeSeek, if_neg (by omega), hx]; rfl⟩
    · rw [writeSeek, if_neg (by omega), hx]
      exact ih ht (by simpa using hn)

/-! ### Reading -/

private theorem view_length_cluster (hs : v.fs.Sound) {c : Nat} (hc : c < v.fatTable.length) :
    (v.view.data c).length = v.fs.bytesPerCluster := by
  rw [bytesPerCluster_eq hs]
  exact (view_sized hs).cluster c hc

/-- The copying loop of `fat_read` returns a piece of the contents, cut off where the chain ends. -/
private theorem readLoop_spec {n o size : Nat} {buffer : List UInt8} (hs : v.fs.Sound) (h : v.view.Chain start cs)
    (hzero : 0 ∉ cs) (hbuf : buffer.length = 512 * v.fs.sectorsPerCluster) (ho : o < v.fs.bytesPerCluster)
    (hn : o + size ≤ n * v.fs.bytesPerCluster) :
    v.readLoop n start o size buffer = some (((v.view.bytes cs).drop o).take size) := by
  induction n generalizing start cs o size buffer with
  | zero =>
    obtain rfl : size = 0 := by omega
    simp [readLoop]
  | succ n ih =>
    rw [readLoop]
    by_cases hsize : size = 0
    · simp [hsize]
    have hlt : start < v.fatTable.length := View.Chain.lt_length h h.mem_head
    have hdata := view_length_cluster hs hlt
    have hread := fatReadDataCluster_spec hlt hbuf
    rw [if_neg (by rw [not_or]; exact ⟨hsize, not_end_of_mem hs h hzero h.mem_head⟩), hread]
    simp only [Option.bind_eq_bind, Option.bind_some]
    by_cases hspan : v.fs.bytesPerCluster - o < size
    · rw [Nat.min_eq_left hspan.le, if_pos hspan, List.take_of_length_le (by rw [List.length_drop, hdata])]
      have hmul : (n + 1) * v.fs.bytesPerCluster = n * v.fs.bytesPerCluster + v.fs.bytesPerCluster := Nat.succ_mul ..
      have hlen' : (v.view.data start).length = 512 * v.fs.sectorsPerCluster := (view_sized hs).cluster start hlt
      rcases chain_cases h with ⟨rfl, x, hx, hend⟩ | ⟨x, t, rfl, hx, _, _, ht⟩
      · -- the chain ends here: the next iteration stops at the end marker
        have hstop : v.readLoop n x.toNat 0 (size - (v.fs.bytesPerCluster - o)) (v.view.data start) = some [] := by
          cases n with
          | zero => omega
          | succ n =>
            rw [readLoop, if_pos]
            simp only [isEndOfClusterChain, decide_eq_true_eq, UInt16.le_iff_toNat_le] at hend
            exact .inr (.inl hend)
        rw [hx, Option.bind_some, hstop, Option.bind_some, View.bytes_cons, View.bytes_nil, List.append_nil,
          List.append_nil, List.take_of_length_le (by rw [List.length_drop, hdata]; omega)]
      · rw [hx, Option.bind_some, ih ht (fun h0 => hzero (by simp [h0])) hlen' (by omega) (by omega),
          Option.bind_some, View.bytes_cons, List.drop_append_of_le_length (by omega), List.drop_zero, List.take_append,
          List.length_drop, hdata]
        congr 2
        exact (List.take_of_length_le (by rw [List.length_drop, hdata]; omega)).symm
    · obtain ⟨t, rfl⟩ := h.exists_cons
      rw [Nat.min_eq_right (Nat.not_lt.1 hspan), if_neg (Nat.lt_irrefl _), View.bytes_cons,
        List.drop_append_of_le_length (by omega), List.take_append_of_le_length (by rw [List.length_drop, hdata]; omega)]

/-- The division of an offset into a cluster and an offset there leaves the loops enough iterations. -/
theorem offset_fuel {b : Nat} (hb : 0 < b) (offset size : Nat) :
    offset % b + size ≤ (size / b + 2) * b := by
  have h1 := Nat.mod_lt offset hb
  have h2 := Nat.div_add_mod size b
  have h3 := Nat.mod_lt size hb
  rw [Nat.mul_comm, Nat.mul_add]
  omega

/-- `fat_read` on a file whose chain has room for its size. -/
theorem fatRead_spec {e : DirEntry} (hs : v.fs.Sound) (h : v.view.Chain e.startCluster.toNat cs) (hzero : 0 ∉ cs)
    (hfile : e.isDirectory = false) (hcapacity : e.fileSize.toNat ≤ cs.length * v.fs.bytesPerCluster)
    (offset size : Nat) : v.fatRead e offset size = some (v.view.read cs e.fileSize.toNat offset size) := by
  have hsized := view_sized hs
  have hpos : 0 < v.fs.bytesPerCluster := View.bytesPerCluster_pos hsized
  have hin : ∀ c ∈ cs, c < v.view.fat.length := fun c hc => View.Chain.lt_length h hc
  unfold fatRead View.read
  rw [hfile, if_neg Bool.false_ne_true]
  by_cases hoff : e.fileSize.toNat ≤ offset
  · rw [if_pos hoff, if_pos hoff]
  rw [if_neg hoff, if_neg hoff, if_neg (by omega)]
  generalize hsize : (if e.fileSize.toNat < (offset + size) % 2 ^ 32 then e.fileSize.toNat - offset else size) = size'
  have hidx : offset / v.fs.bytesPerCluster < cs.length := Nat.div_lt_of_lt_mul (by rw [Nat.mul_comm]; omega)
  obtain ⟨c, hc⟩ : ∃ c, cs[offset / v.fs.bytesPerCluster]? = some c := ⟨_, List.getElem?_eq_getElem hidx⟩
  have hloop := readLoop_spec hs (h.drop hc) (fun h0 => hzero (List.mem_of_mem_drop h0)) (length_zeroBuffer hs)
    (Nat.mod_lt offset hpos) (offset_fuel hpos offset size')
  rw [View.bytes_drop hsized hin, List.drop_drop, view_fs, Nat.mul_comm, Nat.div_add_mod] at hloop
  rw [readSeek_spec hs h hzero hidx, hc]
  simp only [Option.bind_eq_bind, Option.bind_some, hloop]

/-! ### Writing -/

/-- The buffer before it is written has the bytes of the cluster around the range to write. -/
theorem loadCluster_spec {c o : Nat} (bs : List UInt8) {buffer : List UInt8} (hs : v.fs.Sound) (hc : c < v.fatTable.length)
    (hbuf : buffer.length = 512 * v.fs.sectorsPerCluster) (ho : o < v.fs.bytesPerCluster) :
    ∃ b, v.loadCluster c o bs.length buffer = some b ∧ b.length = 512 * v.fs.sectorsPerCluster ∧
      splice b o (bs.take (v.fs.bytesPerCluster - o)) =
        splice (v.view.data c) o (bs.take (v.fs.bytesPerCluster - o)) := by
  by_cases hpart : 0 < o ∨ bs.length < v.fs.bytesPerCluster
  · exact ⟨_, by rw [loadCluster, if_pos hpart, fatReadDataCluster_spec hc hbuf], (view_sized hs).cluster c hc, rfl⟩
  · refine ⟨buffer, by rw [loadCluster, if_neg hpart], hbuf, ?_⟩
    -- the cluster is overwritten as a whole
    obtain ⟨rfl, hlen⟩ : o = 0 ∧ v.fs.bytesPerCluster ≤ bs.length := by omega
    have hall : ∀ l : List UInt8, l.length = v.fs.bytesPerCluster →
        splice l 0 (bs.take (v.fs.bytesPerCluster - 0)) = bs.take (v.fs.bytesPerCluster - 0) := by
      intro l hl
      rw [splice, List.take_zero, List.nil_append, List.drop_eq_nil_of_le (by rw [List.length_take]; omega),
        List.append_nil]
    rw [hall _ (view_length_cluster hs hc), hall _ (by rw [hbuf, bytesPerCluster_eq hs])]

/-- The copying loop of `fat_write` overwrites a piece of the contents and nothing else. -/
theorem writeLoop_spec {n o : Nat} {bs buffer : List UInt8} (hs : v.fs.Sound) (h : v.view.Chain start cs)
    (hbuf : buffer.length = 512 * v.fs.sectorsPerCluster) (ho : o < v.fs.bytesPerCluster)
    (hcapacity : o + bs.length ≤ cs.length * v.fs.bytesPerCluster) (hn : o + bs.length ≤ n * v.fs.bytesPerCluster) :
    ∃ w, writeLoop n v start o bs buffer = some w ∧ w.fs = v.fs ∧ w.fatTable = v.fatTable ∧
      (∀ c, c ∉ cs → w.view.data c = v.view.data c) ∧ w.view.bytes cs = splice (v.view.bytes cs) o bs := by
  induction n generalizing v start cs o bs buffer with
  | zero =>
    obtain rfl : bs = [] := List.length_eq_zero_iff.1 (by omega)
    exact ⟨v, by simp [writeLoop], rfl, rfl, fun _ _ => rfl, (splice_nil _ _).symm⟩
  | succ n ih =>
    by_cases hbs : bs = []
    · subst hbs
      exact ⟨v, by simp [writeLoop], rfl, rfl, fun _ _ => rfl, (splice_nil _ _).symm⟩
    have hlt : start < v.fatTable.length := View.Chain.lt_length h h.mem_head
    have hdata := view_length_cluster hs hlt
    have hmul : (n + 1) * v.fs.bytesPerCluster = n * v.fs.bytesPerCluster + v.fs.bytesPerCluster := Nat.succ_mul ..
    obtain ⟨b, hload, hblen, hsplice⟩ := loadCluster_spec bs hs hlt hbuf ho
    have hmin : bs.take (min (v.fs.bytesPerCluster - o) bs.length) = bs.take (v.fs.bytesPerCluster - o) :=
      List.take_eq_take_iff.2 (by omega)
    have hnew : (splice b o (bs.take (v.fs.bytesPerCluster - o))).length = 512 * v.fs.sectorsPerCluster := by
      rw [length_splice, hblen]
      rw [List.length_take, hblen, ← bytesPerCluster_eq hs]
      omega
    obtain ⟨u, hu, hview⟩ := fatWriteDataCluster_spec hs hlt hnew
    have hfs : u.fs = v.fs := congrArg View.fs hview
    have hfat : u.fatTable = v.fatTable := congrArg View.fat hview
    have hkeep : ∀ c, c ≠ start → u.view.data c = v.view.data c := by
      intro c hc
      rw [hview, View.write_data, Function.update_of_ne hc]
    have hself : u.view.data start = splice (v.view.data start) o (bs.take (v.fs.bytesPerCluster - o)) := by
      rw [hview, View.write_data, Function.update_self, hsplice]
    obtain ⟨t, rfl⟩ := h.exists_cons
    have hnodup := Linked.Chain.nodup v.view.terminates h
    have htail : u.view.bytes t = v.view.bytes t := by
      refine View.bytes_congr fun c hc => hkeep c ?_
      rintro rfl
      exact (List.nodup_cons.1 hnodup).1 hc
    have hborder : splice (v.view.bytes (start :: t)) o bs = u.view.data start ++
        splice (u.view.bytes t) 0 (bs.drop (v.fs.bytesPerCluster - o)) := by
      rw [View.bytes_cons, splice_append (by omega), hdata, hself, htail]
    rw [writeLoop, if_neg hbs, hload]
    simp only [Option.bind_eq_bind, Option.bind_some, hmin, hu]
    by_cases hspan : v.fs.bytesPerCluster - o < bs.length
    · rw [Nat.min_eq_left hspan.le, if_pos hspan]
      rcases chain_cases h with ⟨hone, _⟩ | ⟨x, t', heq, hx, _, _, ht⟩
      · rw [hone, List.length_singleton, Nat.one_mul] at hcapacity
        omega
      obtain rfl : t = t' := (List.cons.inj heq).2
      rw [List.length_cons, Nat.succ_mul] at hcapacity
      have hpos : 0 < v.fs.bytesPerCluster := by omega
      have ht' : u.view.Chain x.toNat t := View.Chain.congr ht fun c _ => by rw [view_fat, hfat]; rfl
      have hnew' : (splice b o (bs.take (v.fs.bytesPerCluster - o))).length = 512 * u.fs.sectorsPerCluster := by
        rw [hfs]
        exact hnew
      obtain ⟨w, hw, hwfs, hwfat, hwkeep, hwbytes⟩ := ih (hfs ▸ hs) ht' hnew' (by rw [hfs]; exact hpos)
        (by rw [hfs, List.length_drop]; omega : 0 + (bs.drop (v.fs.bytesPerCluster - o)).length ≤ _)
        (by rw [hfs, List.length_drop]; omega)
      refine ⟨w, ?_, hwfs.trans hfs, hwfat.trans hfat, ?_, ?_⟩
      · rw [hfat, hx, Option.bind_some, hw]
      · intro c hc
        rw [List.mem_cons, not_or] at hc
        rw [hwkeep c hc.2, hkeep c hc.1]
      · rw [hborder, View.bytes_cons, hwbytes, hwkeep start (List.nodup_cons.1 hnodup).1]
    · rw [Nat.min_eq_right (Nat.not_lt.1 hspan), if_neg (Nat.lt_irrefl _)]
      refine ⟨u, rfl, hfs, hfat, fun c hc => hkeep c ?_, ?_⟩
      · rintro rfl
        exact hc (by simp)
      · rw [hborder, View.bytes_cons, List.drop_eq_nil_of_le (Nat.not_lt.1 hspan), splice_nil]

end Volume

end DBolOS.Fat
