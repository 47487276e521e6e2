import DBolOS.Paging.Directory

/-!
# User pages

`elf_load_process` passes the first of the tables it allocated for every page: all new entries of the directory in the
user's half are that one table, in frame `t`.  `allocate_multiple_pages` changes the directory there and this table,
and nothing else (`allocateMultiplePages_eq`).
-/

namespace DBolOS.Paging

open Pmm (PmmInfo pmmAllocatePage takeFrames)

/-- `n` pages from `v` on below the kernel's half. -/
def UserPages (v n : Nat) : Prop := v + n ≤ 0xC0000

/-- The entry `j` of the directory in frame `c` is the table in frame `t`, if it is there. -/
def PointsTo (mem : Memory) (c t j : Nat) : Prop := (mem c j).present = true → (mem c j).address = t

variable {mem : Memory} {s : Space} {c t v f n : Nat} {p p' : PmmInfo} {onlyKernelMode : Bool} {fs : List Nat}

/-- The memory after page `v` is mapped to frame `f`, with the table in frame `t` for a new entry. -/
def userMapped (mem : Memory) (c t : Nat) (onlyKernelMode : Bool) (v f : Nat) : Memory :=
  mapInto mem c v (tableFor mem c v (t * PAGE_SIZE)) f onlyKernelMode

/-- The memory after the pages from `v` on are mapped to the frames `fs`. -/
def userMem (mem : Memory) (c t : Nat) (onlyKernelMode : Bool) : Nat → List Nat → Memory
  | _, [] => mem
  | v, f :: fs => userMem (userMapped mem c t onlyKernelMode v f) c t onlyKernelMode (v + 1) fs

/-! ### One page -/

private theorem tableFor_user (ht : t < 0x100000) (hv : v < 0xC0000) (hpoints : PointsTo mem c t (v / 1024)) :
    (tableFor mem c v (t * PAGE_SIZE)).address = t := by
  unfold tableFor
  split
  · rename_i hpresent
    exact hpoints hpresent
  · have hlower : ¬ RELOCATION_OFFSET / PAGE_SIZE ≤ v := by
      show ¬ 0xC0000 ≤ v
      omega
    unfold Space.newTable
    dsimp only
    rw [if_neg hlower]
    unfold bits20 PAGE_SIZE
    omega

private theorem userMapped_of_ne (ht : t < 0x100000) (hv : v < 0xC0000) (hpoints : PointsTo mem c t (v / 1024))
    {g : Nat}
    (hc : g ≠ c) (hg : g ≠ t) : userMapped mem c t onlyKernelMode v f g = mem g := by
  funext j
  unfold userMapped mapInto
  rw [if_neg (fun hand => hc hand.1), tableFor_user ht hv hpoints, if_neg (fun hand => hg hand.1)]

private theorem userMapped_self (ht : t < 0x100000) (hv : v < 0xC0000) (hpoints : PointsTo mem c t (v / 1024))
    (hct : c ≠ t)
    (j : Nat) : userMapped mem c t onlyKernelMode v f c j =
      if j = v / 1024 then
        { tableFor mem c v (t * PAGE_SIZE) with
          userSupervisor := (tableFor mem c v (t * PAGE_SIZE)).userSupervisor || !onlyKernelMode }
      else mem c j := by
  unfold userMapped mapInto
  by_cases hj : j = v / 1024
  · rw [if_pos ⟨rfl, hj⟩, if_pos hj]
  · rw [if_neg (fun hand => hj hand.2), if_neg hj, tableFor_user ht hv hpoints, if_neg (fun hand => hct hand.1)]

private theorem userMapped_table (ht : t < 0x100000) (hv : v < 0xC0000) (hpoints : PointsTo mem c t (v / 1024))
    (hct : c ≠ t)
    (j : Nat) : userMapped mem c t onlyKernelMode v f t j =
      if j = v % 1024 then Space.mapped f onlyKernelMode (mem t j) else mem t j := by
  unfold userMapped mapInto
  rw [if_neg (fun hand => hct hand.1.symm), tableFor_user ht hv hpoints]
  by_cases hj : j = v % 1024
  · rw [if_pos ⟨rfl, hj⟩, if_pos hj]
  · rw [if_neg (fun hand => hj hand.2), if_neg hj]

private theorem PointsTo.userMapped {j : Nat} (hj : PointsTo mem c t j) (ht : t < 0x100000) (hv : v < 0xC0000)
    (hpoints : PointsTo mem c t (v / 1024)) (hct : c ≠ t) : PointsTo (userMapped mem c t onlyKernelMode v f) c t j := by
  unfold PointsTo
  rw [userMapped_self ht hv hpoints hct]
  split
  · intro _
    exact tableFor_user ht hv hpoints
  · exact hj

private theorem userMapped_present (ht : t < 0x100000) (hv : v < 0xC0000) (hpoints : PointsTo mem c t (v / 1024))
    (hct : c ≠ t) {j : Nat} (hj : (mem c j).present = true ∨ j = v / 1024) :
    (userMapped mem c t onlyKernelMode v f c j).present = true := by
  rw [userMapped_self ht hv hpoints hct]
  split
  · exact tableFor_present _ _ _ _
  · rename_i hne
    exact hj.resolve_right hne

private theorem SelfMapped.userMapped (h : SelfMapped mem c) (ht : t < 0x100000) (hv : v < 0xC0000)
    (hpoints : PointsTo mem c t (v / 1024)) (hct : c ≠ t) : SelfMapped (userMapped mem c t onlyKernelMode v f) c := by
  have hself : Paging.userMapped mem c t onlyKernelMode v f c 1023 = mem c 1023 := by
    rw [userMapped_self ht hv hpoints hct, if_neg (by omega)]
  refine ⟨?_, ?_⟩
  · rw [hself]
    exact h.present
  · rw [hself]
    exact h.self

/-! ### Several pages -/

/-- The directory and the table are apart, and what the directory has for the pages is the table. -/
structure Loadable (mem : Memory) (c t v n : Nat) : Prop where
  self : SelfMapped mem c
  table : t < 0x100000
  apart : c ≠ t
  pages : UserPages v n
  points : ∀ q, v ≤ q → q < v + n → PointsTo mem c t (q / 1024)

private theorem Loadable.head_lt (h : Loadable mem c t v (n + 1)) : v < 0xC0000 := by
  have := h.pages
  unfold UserPages at this
  omega

private theorem Loadable.head (h : Loadable mem c t v (n + 1)) : PointsTo mem c t (v / 1024) :=
  h.points v (Nat.le_refl _) (by omega)

private theorem Loadable.next (h : Loadable mem c t v (n + 1)) (f : Nat) :
    Loadable (userMapped mem c t onlyKernelMode v f) c t (v + 1) n := by
  refine ⟨h.self.userMapped h.table h.head_lt h.head h.apart, h.table, h.apart, ?_, ?_⟩
  · have := h.pages
    unfold UserPages at this ⊢
    omega
  · intro q hlo hhi
    exact (h.points q (by omega) (by omega)).userMapped h.table h.head_lt h.head h.apart

theorem userMem_of_ne (h : Loadable mem c t v fs.length) {g : Nat} (hc : g ≠ c) (hg : g ≠ t) :
    userMem mem c t onlyKernelMode v fs g = mem g := by
  induction fs generalizing mem v with
  | nil => rfl
  | cons f fs ih => exact (ih (h.next f)).trans (userMapped_of_ne h.table h.head_lt h.head hc hg)

/-- Only entries of the user's half change. -/
theorem userMem_kernel (h : Loadable mem c t v fs.length) {j : Nat} (hj : 768 ≤ j) :
    userMem mem c t onlyKernelMode v fs c j = mem c j := by
  induction fs generalizing mem v with
  | nil => rfl
  | cons f fs ih =>
    refine (ih (h.next f)).trans ?_
    rw [userMapped_self h.table h.head_lt h.head h.apart, if_neg]
    have := h.head_lt
    omega

theorem userMem_self (h : Loadable mem c t v fs.length) : SelfMapped (userMem mem c t onlyKernelMode v fs) c := by
  have hself : userMem mem c t onlyKernelMode v fs c 1023 = mem c 1023 := userMem_kernel h (by omega)
  refine ⟨?_, ?_⟩
  · rw [hself]
    exact h.self.present
  · rw [hself]
    exact h.self.self

theorem userMem_pointsTo (h : Loadable mem c t v fs.length) {j : Nat} (hj : PointsTo mem c t j) :
    PointsTo (userMem mem c t onlyKernelMode v fs) c t j := by
  induction fs generalizing mem v with
  | nil => exact hj
  | cons f fs ih => exact ih (h.next f) (hj.userMapped h.table h.head_lt h.head h.apart)

theorem userMem_present (h : Loadable mem c t v fs.length) {j : Nat}
    (hj : (mem c j).present = true ∨ ∃ q, v ≤ q ∧ q < v + fs.length ∧ j = q / 1024) :
    (userMem mem c t onlyKernelMode v fs c j).present = true := by
  induction fs generalizing mem v with
  | nil =>
    obtain hj | ⟨q, hlo, hhi, -⟩ := hj
    · exact hj
    · exact absurd hhi (by simpa using hlo)
  | cons f fs ih =>
    rw [List.length_cons] at hj
    apply ih (h.next f)
    obtain hj | ⟨q, hlo, hhi, hj⟩ := hj
    · left
      exact userMapped_present h.table h.head_lt h.head h.apart (Or.inl hj)
    · by_cases hq : q = v
      · left
        rw [hq] at hj
        exact userMapped_present h.table h.head_lt h.head h.apart (Or.inr hj)
      · right
        exact ⟨q, by omega, by omega, hj⟩

/-- The table has an entry for every page mapped, and for what it had one before. -/
theorem userMem_table_present (h : Loadable mem c t v fs.length) {j : Nat}
    (hj : (mem t j).present = true ∨ ∃ q, v ≤ q ∧ q < v + fs.length ∧ j = q % 1024) :
    (userMem mem c t onlyKernelMode v fs t j).present = true := by
  induction fs generalizing mem v with
  | nil =>
    obtain hj | ⟨q, hlo, hhi, -⟩ := hj
    · exact hj
    · exact absurd hhi (by simpa using hlo)
  | cons f fs ih =>
    rw [List.length_cons] at hj
    apply ih (h.next f)
    by_cases hv : j = v % 1024
    · left
      rw [userMapped_table h.table h.head_lt h.head h.apart, if_pos hv]
      rfl
    · obtain hj | ⟨q, hlo, hhi, hj⟩ := hj
      · left
        rw [userMapped_table h.table h.head_lt h.head h.apart, if_neg hv]
        exact hj
      · right
        refine ⟨q, ?_, by omega, hj⟩
        rcases Nat.eq_or_lt_of_le hlo with rfl | hlt
        · exact absurd hj hv
        · exact hlt

/-- The entry of the last page holds the last frame. -/
theorem userMem_last (h : Loadable mem c t v (fs.length + 1)) (f : Nat) :
    userMem mem c t onlyKernelMode v (fs ++ [f]) t ((v + fs.length) % 1024) =
      Space.mapped f onlyKernelMode (userMem mem c t onlyKernelMode v fs t ((v + fs.length) % 1024)) := by
  induction fs generalizing mem v with
  | nil =>
    show userMapped mem c t onlyKernelMode v f t (v % 1024) = _
    rw [userMapped_table h.table h.head_lt h.head h.apart, if_pos rfl]
    rfl
  | cons f' fs ih =>
    rw [List.length_cons, Nat.add_comm fs.length 1, ← Nat.add_assoc]
    exact ih (h.next f')

namespace Space

private theorem allocateLoop_eq (onlyKernelMode : Bool) {start i : Nat} (h : Loadable s.mem s.cr3 t (start + i) n)
    (hfs : takeFrames n s.pmm = some (fs, p)) :
    allocateLoop start onlyKernelMode (t * PAGE_SIZE) n i s =
      some (true, { s with mem := userMem s.mem s.cr3 t onlyKernelMode (start + i) fs, pmm := p }) := by
  induction n generalizing s fs i with
  | zero =>
    cases hfs
    rfl
  | succ n ih =>
    obtain ⟨f, p₁, fs', hf, hne, hfs', rfl⟩ := Pmm.takeFrames_succ.1 hfs
    have hdir : (start + i) / 1024 < 1023 := by
      have := h.head_lt
      omega
    have htable : (tableFor s.mem s.cr3 (start + i) (t * PAGE_SIZE)).address ≠ s.cr3 := by
      rw [tableFor_user h.table h.head_lt h.head]
      exact h.apart.symm
    have hmap := pagingMapPage_eq (s := { s with pmm := p₁ }) h.self hdir f onlyKernelMode (t * PAGE_SIZE) htable
    have hrest := ih (s := { s with mem := userMapped s.mem s.cr3 t onlyKernelMode (start + i) f, pmm := p₁ })
      (i := i + 1) (h.next f) hfs'
    unfold allocateLoop
    simp only [hf, Option.bind_eq_bind, Option.bind_some, hne, if_false, hmap]
    exact hrest

/-- The pages are mapped to the frames that are there. -/
theorem allocateMultiplePages_eq (onlyKernelMode : Bool) {start : Nat} (h : Loadable s.mem s.cr3 t start n)
    (hfs : takeFrames n s.pmm = some (fs, p)) :
    s.allocateMultiplePages start n onlyKernelMode (t * PAGE_SIZE) =
      some (true, { s with mem := userMem s.mem s.cr3 t onlyKernelMode start fs, pmm := p }) :=
  allocateLoop_eq (i := 0) onlyKernelMode h hfs

end Space

end DBolOS.Paging
