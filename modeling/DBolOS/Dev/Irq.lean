import DBolOS.Dev.Pic
import DBolOS.Lib.Run

/-!
# Interrupts over runs

The controllers as `init_pic` and `init_irqs` leave them, after any toggles, under interrupts whose handlers call `irq_exit`
with the number of the line.  They do what `Lines` does, entry by entry (`irqs_lockstep`): the lines of the master are served
by priority, each request once.  `irq_exit` compares the number with `PIC2_IRQ_INDEX`, which is a vector, and so no interrupt
of the slave is ever ended: a line of the slave that was served is not served again, nor is one behind it.
-/

namespace DBolOS.Dev

/-! ### Lines -/

/-- Line `i` of the master. -/
def ofMaster (i : Fin 8) : Fin 16 := i.castLE (by decide)

/-- Line `i` of the slave. -/
def ofSlave (i : Fin 8) : Fin 16 := Fin.natAdd 8 i

/-- The line that `pic_toggle_irq` means by a number. -/
def lineOf (n : UInt8) : Fin 16 :=
  if n > 7 then ofSlave (Fin.ofNat 8 (n.toNat % 8)) else ofMaster (Fin.ofNat 8 (n.toNat % 8))

def vectorOf (n : Fin 16) : UInt8 := PIC1_IRQ_INDEX + UInt8.ofNat n

/-- The lines that are on after `init_irqs` and some toggles. -/
def enabledBy (toggles : List (UInt8 × Bool)) : Fin 16 → Bool :=
  toggles.foldl (fun enabled t => Function.update enabled (lineOf t.1) t.2) fun n => decide (n = 2)

private theorem ofMaster_ne_ofSlave (i j : Fin 8) : ofMaster i ≠ ofSlave j := by
  intro h
  have := congrArg Fin.val h
  simp [ofMaster, ofSlave] at this
  omega

private theorem ofMaster_injective : Function.Injective ofMaster := Fin.castLE_injective (by decide)

private theorem ofSlave_injective : Function.Injective ofSlave := Fin.natAdd_injective 8 8

/-- What passes between the devices, the controllers and the processor. -/
inductive Signal
  | raise (n : Fin 16)
  | accept (vector : UInt8)
  /-- The processor looks for an interrupt and finds none. -/
  | quiet
  | exit

/-- The lines as their users see them: those with a request, those of the slave that were ever served, and the one that a
handler runs for. -/
structure Lines where
  pending : Finset (Fin 16)
  served : Finset (Fin 16)
  serving : Option (Fin 16)
  deriving DecidableEq

namespace Lines

/-- By priority; the slave is in the place of line 2. -/
def order : List (Fin 16) := [0, 1] ++ ((List.finRange 8).map ofSlave ++ [3, 4, 5, 6, 7])

variable (enabled : Fin 16 → Bool)

/-- The line has a request that can be served. -/
def waits (t : Lines) (n : Fin 16) : Bool :=
  decide (n ∈ t.pending) && enabled n && (decide (n < 8) || enabled 2 && decide (∀ m ∈ t.served, n < m))

def next (t : Lines) : Option (Fin 16) := order.find? (t.waits enabled)

def step (t : Lines) : Signal → Option Lines
  | .raise n => if n = 2 then none else some { t with pending := insert n t.pending }
  | .accept vector =>
    match t.serving, t.next enabled with
    | none, some n =>
      if vector = vectorOf n then
        some ⟨t.pending.erase n, if n < 8 then t.served else insert n t.served, some n⟩
      else none
    | _, _ => none
  | .quiet => if t.serving = none ∧ t.next enabled = none then some t else none
  | .exit => if t.serving = none then none else some { t with serving := none }

end Lines

/-! ### The controllers under interrupts -/

/-- The controllers, and the vector that a handler runs for. -/
structure Irqs where
  pics : Pics
  serving : Option UInt8

/-- One signal, with `exits` the number that the handler of a vector hands to `irq_exit`.  A handler runs with interrupts
disabled. -/
def Irqs.step (exits : UInt8 → Option UInt32) (s : Irqs) : Signal → Option Irqs
  | .raise n => if n = 2 then none else some { s with pics := s.pics.raise n }
  | .accept vector =>
    if s.serving = none then
      match s.pics.acknowledge with
      | some (v, p) => if vector = v then some ⟨p, some v⟩ else none
      | none => none
    else none
  | .quiet => if s.serving = none ∧ s.pics.intr = false then some s else none
  | .exit =>
    match s.serving with
    | none => none
    | some v =>
      match exits v with
      | none => some { s with serving := none }
      | some n => some ⟨s.pics.irqExit n, none⟩

/-! ### Initialization -/

/-- What the initialization words and the mask set. -/
def Pic.settings (c : Pic) : UInt8 × UInt8 × UInt8 × Expects := (c.imr, c.base, c.cascade, c.expects)

namespace Pics

variable {p : Pics} {enabled : Fin 16 → Bool}

/-- The controllers are set up, with the lines `enabled`. -/
structure Ready (p : Pics) (enabled : Fin 16 → Bool) : Prop where
  masterExpects : p.master.expects = .mask
  slaveExpects : p.slave.expects = .mask
  masterBase : p.master.base = PIC1_IRQ_INDEX
  slaveBase : p.slave.base = PIC2_IRQ_INDEX
  masterCascade : p.master.cascade = 0b00000100
  slaveCascade : p.slave.cascade = 2
  masterMask : ∀ i, bit p.master.imr i = !enabled (ofMaster i)
  slaveMask : ∀ i, bit p.slave.imr i = !enabled (ofSlave i)

private theorem Ready.of_settings {p' : Pics} (h : p.Ready enabled) (hmaster : p'.master.settings = p.master.settings)
    (hslave : p'.slave.settings = p.slave.settings) : p'.Ready enabled := by
  simp only [Pic.settings, Prod.mk.injEq] at hmaster hslave
  obtain ⟨hmimr, hmbase, hmcascade, hmexpects⟩ := hmaster
  obtain ⟨hsimr, hsbase, hscascade, hsexpects⟩ := hslave
  exact ⟨hmexpects ▸ h.masterExpects, hsexpects ▸ h.slaveExpects, hmbase ▸ h.masterBase, hsbase ▸ h.slaveBase,
    hmcascade ▸ h.masterCascade, hscascade ▸ h.slaveCascade, hmimr ▸ h.masterMask, hsimr ▸ h.slaveMask⟩

/-- What the chips were asked for, and what they have in service. -/
def requests (p : Pics) : Finset (Fin 8) × Finset (Fin 8) × Finset (Fin 8) × Finset (Fin 8) :=
  (p.master.irr, p.master.isr, p.slave.irr, p.slave.isr)

private theorem Ready.toggle (h : p.Ready enabled) (n : UInt8) (on : Bool) :
    (p.picToggleIrq n on).Ready (Function.update enabled (lineOf n) on) ∧ (p.picToggleIrq n on).requests = p.requests := by
  have hval : ∀ i : Fin 8, i.val = n.toNat % 8 ↔ i = Fin.ofNat 8 (n.toNat % 8) := by
    intro i
    rw [Fin.ext_iff, Fin.val_ofNat, Nat.mod_mod]
  by_cases hn : n > 7
  · have hline : lineOf n = ofSlave (Fin.ofNat 8 (n.toNat % 8)) := if_pos hn
    have heq : p.picToggleIrq n on = { p with slave := { p.slave with
        imr := if on then p.slave.imr &&& ~~~(1 <<< (n % 8)) else p.slave.imr ||| (1 <<< (n % 8)) } } := by
      simp only [picToggleIrq, hn, if_true]
      show Pics.mk _ (p.slave.data _) = _
      rw [Pic.data, h.slaveExpects]
      rfl
    rw [heq, hline]
    refine ⟨⟨h.masterExpects, h.slaveExpects, h.masterBase, h.slaveBase, h.masterCascade, h.slaveCascade, fun i => ?_,
      fun i => ?_⟩, rfl⟩
    · rw [Function.update_of_ne (ofMaster_ne_ofSlave i _)]
      exact h.masterMask i
    · rw [bit_toggle, Function.update_apply]
      simp only [hval, ofSlave_injective.eq_iff, h.slaveMask]
      split <;> rfl
  · have hline : lineOf n = ofMaster (Fin.ofNat 8 (n.toNat % 8)) := if_neg hn
    have heq : p.picToggleIrq n on = { p with master := { p.master with
        imr := if on then p.master.imr &&& ~~~(1 <<< (n % 8)) else p.master.imr ||| (1 <<< (n % 8)) } } := by
      simp only [picToggleIrq, hn, if_false]
      show Pics.mk (p.master.data _) _ = _
      rw [Pic.data, h.masterExpects]
      rfl
    rw [heq, hline]
    refine ⟨⟨h.masterExpects, h.slaveExpects, h.masterBase, h.slaveBase, h.masterCascade, h.slaveCascade, fun i => ?_,
      fun i => ?_⟩, rfl⟩
    · rw [bit_toggle, Function.update_apply]
      simp only [hval, ofMaster_injective.eq_iff, h.masterMask]
      split <;> rfl
    · rw [Function.update_of_ne (ofMaster_ne_ofSlave _ i).symm]
      exact h.slaveMask i

private theorem Ready.toggles (h : p.Ready enabled) (toggles : List (UInt8 × Bool)) :
    (toggles.foldl (fun p t => p.picToggleIrq t.1 t.2) p).Ready
        (toggles.foldl (fun enabled t => Function.update enabled (lineOf t.1) t.2) enabled) ∧
      (toggles.foldl (fun p t => p.picToggleIrq t.1 t.2) p).requests = p.requests := by
  induction toggles generalizing p enabled with
  | nil => exact ⟨h, rfl⟩
  | cons t toggles ih =>
    obtain ⟨hready, hrequests⟩ := h.toggle t.1 t.2
    obtain ⟨hready', hrequests'⟩ := ih hready
    exact ⟨hready', hrequests'.trans hrequests⟩

/-- The toggles of `init_irqs`. -/
def initToggles : List (UInt8 × Bool) := (List.range 16).map (fun i => (UInt8.ofNat i, false)) ++ [(CASCADE_IRQ, true)]

private theorem initIrqs_eq (p : Pics) : p.initIrqs = initToggles.foldl (fun p t => p.picToggleIrq t.1 t.2) p := rfl

/-- After `init_pic` and `init_irqs` only the cascade is on, whatever the masks were. -/
private theorem ready_init (p : Pics) : ((p.initPic PIC1_IRQ_INDEX PIC2_IRQ_INDEX).initIrqs).Ready (enabledBy []) ∧
    ((p.initPic PIC1_IRQ_INDEX PIC2_IRQ_INDEX).initIrqs).requests = (∅, p.master.isr, ∅, p.slave.isr) := by
  let before : Fin (8 + 8) → Bool :=
    Fin.addCases (motive := fun _ => Bool) (fun i => !bit p.master.imr i) fun i => !bit p.slave.imr i
  have hready : (p.initPic PIC1_IRQ_INDEX PIC2_IRQ_INDEX).Ready before := by
    refine ⟨rfl, rfl, rfl, rfl, rfl, rfl, fun i => ?_, fun i => ?_⟩
    · show bit p.master.imr i = !before (Fin.castAdd 8 i)
      rw [show before (Fin.castAdd 8 i) = _ from Fin.addCases_left i, Bool.not_not]
    · show bit p.slave.imr i = !before (Fin.natAdd 8 i)
      rw [show before (Fin.natAdd 8 i) = _ from Fin.addCases_right i, Bool.not_not]
  have hafter : initToggles.foldl (fun enabled t => Function.update enabled (lineOf t.1) t.2) before = enabledBy [] := by
    funext n
    fin_cases n <;> rfl
  obtain ⟨hready', hrequests⟩ := hready.toggles initToggles
  rw [hafter] at hready'
  rw [initIrqs_eq]
  exact ⟨hready', hrequests⟩

end Pics

/-! ### The relation to the lines -/

variable {enabled : Fin 16 → Bool} {s : Irqs} {t : Lines} {n : Fin 16}

private theorem line_cases (n : Fin 16) : (∃ i, n = ofMaster i) ∨ ∃ i, n = ofSlave i :=
  Fin.addCases (motive := fun n : Fin (8 + 8) => (∃ i, n = ofMaster i) ∨ ∃ i, n = ofSlave i)
    (fun i => .inl ⟨i, rfl⟩) (fun i => .inr ⟨i, rfl⟩) n

/-- The line of the master that a line reaches the processor by. -/
def atMaster (n : Fin 16) : Fin 8 := if h : n.val < 8 then ⟨n, h⟩ else 2

/-- The registers hold the lines. -/
structure Serves (enabled : Fin 16 → Bool) (s : Irqs) (t : Lines) : Prop where
  ready : s.pics.Ready enabled
  cascade : (2 : Fin 16) ∉ t.pending
  masterRequests : ∀ i, i ∈ s.pics.master.irr ↔ ofMaster i ∈ t.pending
  slaveRequests : ∀ i, i ∈ s.pics.slave.irr ↔ ofSlave i ∈ t.pending
  masterService : s.pics.master.isr = (t.serving.map atMaster).toFinset
  slaveService : ∀ i, i ∈ s.pics.slave.isr ↔ ofSlave i ∈ t.served
  served : ∀ n ∈ t.served, 8 ≤ n
  enabled : ∀ n, t.serving = some n → n ≠ 2 ∧ enabled n = true
  serving : s.serving = t.serving.map vectorOf

private theorem ofMaster_lt (i : Fin 8) : ofMaster i < 8 := i.isLt

private theorem not_ofSlave_lt (i : Fin 8) : ¬ofSlave i < 8 := by
  rw [Fin.lt_def, ofSlave, Fin.val_natAdd]
  show ¬8 + i.val < 8
  omega

/-- The slave asks for its first line that waits. -/
private theorem Serves.slaveInterrupt (h : Serves enabled s t) (hcascade : enabled 2 = true) :
    s.pics.slave.interrupt (fun _ => false) = (List.finRange 8).find? fun i => t.waits enabled (ofSlave i) := by
  rw [Pic.interrupt, Fin.find?_eq_find?_finRange]
  congr 1
  funext i
  have hin : (∀ j ∈ s.pics.slave.isr, i < j) ↔ ∀ m ∈ t.served, ofSlave i < m := by
    constructor
    · intro hall m hm
      obtain ⟨j, rfl⟩ | ⟨j, rfl⟩ := line_cases m
      · exact absurd (ofMaster_lt j) (Fin.not_lt.2 (h.served _ hm))
      · exact Fin.natAdd_lt_natAdd_iff 8 |>.2 (hall j ((h.slaveService j).2 hm))
    · intro hall j hj
      exact Fin.natAdd_lt_natAdd_iff 8 |>.1 (hall _ ((h.slaveService j).1 hj))
  simp only [Lines.waits, h.slaveRequests, h.ready.slaveMask, hin, hcascade, not_ofSlave_lt, Bool.or_false, Bool.not_not,
    decide_false, Bool.false_or, Bool.true_and]

/-- The master asks for the first line that waits, or for the slave. -/
private theorem Serves.masterInterrupt (h : Serves enabled s t) (hserving : t.serving = none) :
    s.pics.master.interrupt s.pics.wired = [0, 1, 2, 3, 4, 5, 6, 7].find? fun i =>
      if i = 2 then enabled 2 && (s.pics.slave.interrupt fun _ => false).isSome else t.waits enabled (ofMaster i) := by
  rw [Pic.interrupt, Fin.find?_eq_find?_finRange]
  show [0, 1, 2, 3, 4, 5, 6, 7].find? _ = _
  congr 1
  funext i
  have hnone : s.pics.master.isr = ∅ := by rw [h.masterService, hserving]; rfl
  simp only [hnone, Finset.notMem_empty, false_imp_iff, implies_true, decide_true, Bool.and_true, h.masterRequests,
    h.ready.masterMask, Bool.not_not, Pics.wired]
  split
  · rename_i hi
    subst hi
    simp only [show ofMaster 2 = 2 from rfl, h.cascade, decide_true, decide_false, Bool.true_and, Bool.false_or,
      Bool.and_comm]
  · rename_i hi
    simp only [hi, decide_false, Bool.false_and, Bool.or_false, Lines.waits, ofMaster_lt, decide_true, Bool.true_or,
      Bool.and_true]

/-- The line that is served next, on the chips. -/
private theorem Serves.next_eq (h : Serves enabled s t) (hserving : t.serving = none) : t.next enabled =
    (s.pics.master.interrupt s.pics.wired).bind fun i =>
      if i = 2 then (s.pics.slave.interrupt fun _ => false).map ofSlave else some (ofMaster i) := by
  have hslave : (((List.finRange 8).map ofSlave).find? (t.waits enabled)) =
      if enabled 2 then (s.pics.slave.interrupt fun _ => false).map ofSlave else none := by
    rw [List.find?_map]
    cases hcascade : enabled 2 with
    | true => rw [if_pos rfl, h.slaveInterrupt hcascade]; rfl
    | false =>
      rw [if_neg (by decide), Option.map_eq_none_iff, List.find?_eq_none]
      intro i _
      simp [Lines.waits, hcascade, not_ofSlave_lt]
  rw [h.masterInterrupt hserving, Lines.next, Lines.order, List.find?_append, List.find?_append, hslave]
  generalize s.pics.slave.interrupt (fun _ => false) = slave
  let q : Fin 8 → Bool := fun i => if i = 2 then enabled 2 && slave.isSome else t.waits enabled (ofMaster i)
  have hbelow : ∀ l : List (Fin 8), 2 ∉ l → (l.map ofMaster).find? (t.waits enabled) = (l.find? q).map ofMaster := by
    intro l hl
    induction l with
    | nil => rfl
    | cons i l ih =>
      rw [List.mem_cons, not_or] at hl
      obtain ⟨hi, hl⟩ := hl
      rw [List.map_cons, List.find?_cons, List.find?_cons, ih hl, show q i = t.waits enabled (ofMaster i) from
        if_neg (Ne.symm hi)]
      cases t.waits enabled (ofMaster i) <;> rfl
  have hfirst := hbelow [0, 1] (by decide)
  have hlast := hbelow [3, 4, 5, 6, 7] (by decide)
  have hne : ∀ l : List (Fin 8), 2 ∉ l → ∀ i, l.find? q = some i → i ≠ 2 := by
    rintro l hl i hi rfl
    exact hl (List.mem_of_find?_eq_some hi)
  change ((([0, 1] : List (Fin 8)).map ofMaster).find? (t.waits enabled)).or
    ((if enabled 2 then slave.map ofSlave else none).or
      ((([3, 4, 5, 6, 7] : List (Fin 8)).map ofMaster).find? (t.waits enabled))) =
    ((([0, 1] : List (Fin 8)) ++ 2 :: [3, 4, 5, 6, 7]).find? q).bind fun i =>
      if i = 2 then slave.map ofSlave else some (ofMaster i)
  have hmiddle : ((2 : Fin 8) :: [3, 4, 5, 6, 7]).find? q =
      if enabled 2 && slave.isSome then some 2 else ([3, 4, 5, 6, 7] : List (Fin 8)).find? q := by
    rw [List.find?_cons, show q 2 = (enabled 2 && slave.isSome) from rfl]
    cases enabled 2 && slave.isSome <;> rfl
  rw [hfirst, hlast, List.find?_append, hmiddle]
  have hne_first := hne [0, 1] (by decide)
  have hne_last := hne [3, 4, 5, 6, 7] (by decide)
  generalize ([0, 1] : List (Fin 8)).find? q = first at hne_first ⊢
  generalize ([3, 4, 5, 6, 7] : List (Fin 8)).find? q = last at hne_last ⊢
  cases first with
  | some i => simp [hne_first i rfl]
  | none =>
    rw [Option.none_or, Option.map_none, Option.none_or]
    cases last with
    | none => cases enabled 2 <;> cases slave <;> simp
    | some i => cases enabled 2 <;> cases slave <;> simp [hne_last i rfl]

/-! ### Signals -/

private theorem bit_cascade (i : Fin 8) : bit 0b00000100 i = decide (i = 2) := by
  revert i
  decide

private theorem atMaster_ofMaster (i : Fin 8) : atMaster (ofMaster i) = i := dif_pos i.isLt

private theorem atMaster_ofSlave (i : Fin 8) : atMaster (ofSlave i) = 2 := dif_neg (not_ofSlave_lt i)

private theorem vectorOf_ofSlave (i : Fin 8) : PIC2_IRQ_INDEX + UInt8.ofNat i = vectorOf (ofSlave i) := by
  revert i
  decide

/-- The lines after the interrupt of `n` was taken. -/
def Lines.serve (t : Lines) (n : Fin 16) : Lines :=
  ⟨t.pending.erase n, if n < 8 then t.served else insert n t.served, some n⟩

@[simp] theorem Lines.mem_pending_serve {m : Fin 16} : m ∈ (t.serve n).pending ↔ m ≠ n ∧ m ∈ t.pending :=
  Finset.mem_erase

private theorem Lines.served_ofMaster (i : Fin 8) : (t.serve (ofMaster i)).served = t.served := if_pos (ofMaster_lt i)

private theorem Lines.served_ofSlave (i : Fin 8) : (t.serve (ofSlave i)).served = insert (ofSlave i) t.served :=
  if_neg (not_ofSlave_lt i)

/-- The processor takes the interrupt of the line that is served next. -/
private theorem Serves.accept (h : Serves enabled s t) (hserving : t.serving = none) (hn : t.next enabled = some n) :
    s.pics.intr = true ∧ ∃ p, s.pics.acknowledge = some (vectorOf n, p) ∧
      Serves enabled ⟨p, some (vectorOf n)⟩ (t.serve n) := by
  have hnone : s.pics.master.isr = ∅ := by rw [h.masterService, hserving]; rfl
  have henabled : enabled n = true := by
    have hwaits := List.find?_some hn
    simp only [Lines.waits, Bool.and_eq_true] at hwaits
    exact hwaits.1.2
  rw [h.next_eq hserving, Option.bind_eq_some_iff] at hn
  obtain ⟨i, hi, hline⟩ := hn
  refine ⟨by rw [Pics.intr, hi]; rfl, ?_⟩
  rw [Pics.acknowledge, hi, Option.bind_eq_bind, Option.bind_some, h.ready.masterCascade, bit_cascade]
  by_cases htwo : i = 2
  · subst htwo
    rw [if_pos rfl, Option.map_eq_some_iff] at hline
    obtain ⟨j, hj, rfl⟩ := hline
    rw [if_pos (by decide), if_pos (by rw [h.ready.slaveCascade]; decide), hj, Option.bind_some, h.ready.slaveBase,
      vectorOf_ofSlave]
    refine ⟨_, rfl, h.ready.of_settings rfl rfl, ?_, fun k => ?_, fun k => ?_, ?_, fun k => ?_, fun m hm => ?_, ?_, rfl⟩
    · exact fun htwo => h.cascade (Lines.mem_pending_serve.1 htwo).2
    · rw [Pic.mem_irr_serve, Lines.mem_pending_serve, h.masterRequests, and_iff_right (ofMaster_ne_ofSlave k j)]
      refine ⟨And.right, fun hk => ⟨?_, hk⟩⟩
      rintro rfl
      exact h.cascade hk
    · rw [Pic.mem_irr_serve, Lines.mem_pending_serve, h.slaveRequests, ofSlave_injective.ne_iff]
    · show insert 2 s.pics.master.isr = ({atMaster (ofSlave j)} : Finset (Fin 8))
      rw [hnone, atMaster_ofSlave]
      rfl
    · rw [Pic.mem_isr_serve, Lines.served_ofSlave, Finset.mem_insert, h.slaveService, ofSlave_injective.eq_iff]
    · rw [Lines.served_ofSlave, Finset.mem_insert] at hm
      obtain rfl | hm := hm
      · exact Fin.not_lt.1 (not_ofSlave_lt j)
      · exact h.served m hm
    · intro m hm
      cases hm
      exact ⟨(ofMaster_ne_ofSlave 2 j).symm, henabled⟩
  · rw [if_neg htwo] at hline
    cases hline
    rw [if_neg (by simpa using htwo), h.ready.masterBase]
    refine ⟨_, rfl, h.ready.of_settings rfl rfl, ?_, fun k => ?_, fun k => ?_, ?_, fun k => ?_, fun m hm => ?_, ?_, rfl⟩
    · exact fun htwo => h.cascade (Lines.mem_pending_serve.1 htwo).2
    · rw [Pic.mem_irr_serve, Lines.mem_pending_serve, h.masterRequests, ofMaster_injective.ne_iff]
    · rw [Lines.mem_pending_serve, h.slaveRequests, and_iff_right (ofMaster_ne_ofSlave i k).symm]
    · show insert i s.pics.master.isr = ({atMaster (ofMaster i)} : Finset (Fin 8))
      rw [hnone, atMaster_ofMaster]
      rfl
    · rw [Lines.served_ofMaster]
      exact h.slaveService k
    · rw [Lines.served_ofMaster] at hm
      exact h.served m hm
    · intro m hm
      cases hm
      exact ⟨ofMaster_injective.ne htwo, henabled⟩

/-- Where no line waits, the chips ask for nothing. -/
private theorem Serves.idle (h : Serves enabled s t) (hserving : t.serving = none) (hn : t.next enabled = none) :
    s.pics.master.interrupt s.pics.wired = none := by
  rw [h.next_eq hserving] at hn
  cases hi : s.pics.master.interrupt s.pics.wired with
  | none => rfl
  | some i =>
    rw [hi, Option.bind_some] at hn
    by_cases htwo : i = 2
    · rw [if_pos htwo, Option.map_eq_none_iff] at hn
      rw [h.masterInterrupt hserving] at hi
      have hfound := List.find?_some hi
      rw [if_pos htwo, hn, Option.isSome_none, Bool.and_false] at hfound
      exact absurd hfound (by decide)
    · rw [if_neg htwo] at hn
      cases hn

private theorem Pics.raise_ofMaster (p : Pics) (i : Fin 8) :
    p.raise (ofMaster i) = { p with master := p.master.request i } :=
  dif_pos i.isLt

private theorem Pics.raise_ofSlave (p : Pics) (i : Fin 8) :
    p.raise (ofSlave i) = { p with slave := p.slave.request i } := by
  have hi : (ofSlave i).subNat 8 (Nat.not_lt.1 (not_ofSlave_lt i)) = i := Fin.ext (Nat.add_sub_cancel_left 8 i)
  rw [Pics.raise, dif_neg (show ¬(ofSlave i).val < 8 from not_ofSlave_lt i), hi]

private theorem Serves.raise (h : Serves enabled s t) (hn : n ≠ 2) :
    Serves enabled { s with pics := s.pics.raise n } { t with pending := insert n t.pending } := by
  have hcascade : (2 : Fin 16) ∉ insert n t.pending := by
    rw [Finset.mem_insert, not_or]
    exact ⟨hn.symm, h.cascade⟩
  obtain ⟨i, rfl⟩ | ⟨i, rfl⟩ := line_cases n
  · rw [Pics.raise_ofMaster]
    refine ⟨h.ready.of_settings rfl rfl, hcascade, fun k => ?_, fun k => ?_, h.masterService, h.slaveService, h.served,
      h.enabled, h.serving⟩
    · rw [Pic.mem_irr_request, Finset.mem_insert, h.masterRequests, ofMaster_injective.eq_iff]
    · rw [Finset.mem_insert, h.slaveRequests, or_iff_right (ofMaster_ne_ofSlave i k).symm]
  · rw [Pics.raise_ofSlave]
    refine ⟨h.ready.of_settings rfl rfl, hcascade, fun k => ?_, fun k => ?_, h.masterService, h.slaveService, h.served,
      h.enabled, h.serving⟩
    · rw [Finset.mem_insert, h.masterRequests, or_iff_right (ofMaster_ne_ofSlave k i)]
    · rw [Pic.mem_irr_request, Finset.mem_insert, h.slaveRequests, ofSlave_injective.eq_iff]

private theorem Pic.command_eoi {c : Pic} {i : Fin 8} (hc : c.isr = {i}) : c.command PIC_EOI = { c with isr := ∅ } := by
  have hfind : (Fin.find? fun j => decide (j ∈ c.isr)) = some i := by
    rw [Fin.find?_eq_some_iff]
    simp only [hc, Finset.mem_singleton, decide_eq_true_eq, decide_eq_false_iff_not]
    exact ⟨trivial, fun j hj => hj.ne⟩
  rw [Pic.command, if_neg (by decide), if_pos rfl, hfind, hc]
  simp

/-- The number of a line is below `PIC2_IRQ_INDEX`, and so the slave hears nothing. -/
private theorem Pics.irqExit_line (p : Pics) (n : Fin 16) :
    p.irqExit (UInt32.ofNat n) = { p with master := p.master.command PIC_EOI } := by
  have hn : ¬UInt32.ofNat n ≥ PIC2_IRQ_INDEX.toUInt32 := by
    revert n
    decide
  simp only [Pics.irqExit, hn, if_false]
  rfl

private theorem Serves.exit (h : Serves enabled s t) (hserving : t.serving = some n) :
    Serves enabled ⟨s.pics.irqExit (UInt32.ofNat n), none⟩ { t with serving := none } := by
  rw [Pics.irqExit_line, Pic.command_eoi (i := atMaster n) (by rw [h.masterService, hserving]; rfl)]
  refine ⟨h.ready.of_settings rfl rfl, h.cascade, h.masterRequests, h.slaveRequests, rfl, h.slaveService, h.served, ?_, rfl⟩
  intro m hm
  cases hm

/-- The handlers of the lines that are on hand the number of their line to `irq_exit`. -/
def ExitsByLine (enabled : Fin 16 → Bool) (exits : UInt8 → Option UInt32) : Prop :=
  ∀ n, n ≠ 2 → enabled n = true → exits (vectorOf n) = some (UInt32.ofNat n)

variable {exits : UInt8 → Option UInt32}

/-- One signal does to the controllers what it does to the lines. -/
private theorem Serves.step (hexits : ExitsByLine enabled exits) (h : Serves enabled s t) (i : Signal) :
    Option.Rel (Serves enabled) (s.step exits i) (t.step enabled i) := by
  cases i with
  | raise n =>
    rw [Irqs.step, Lines.step]
    by_cases hn : n = 2
    · rw [if_pos hn, if_pos hn]
      exact .none
    · rw [if_neg hn, if_neg hn]
      exact .some (h.raise hn)
  | accept vector =>
    rw [Irqs.step, Lines.step, h.serving]
    cases hserving : t.serving with
    | some m => exact .none
    | none =>
      rw [Option.map_none, if_pos rfl]
      cases hnext : t.next enabled with
      | none =>
        rw [Pics.acknowledge, h.idle hserving hnext]
        exact .none
      | some n =>
        obtain ⟨-, p, hp, hserves⟩ := h.accept hserving hnext
        rw [hp]
        show Option.Rel _ (if vector = vectorOf n then _ else _) (if vector = vectorOf n then _ else _)
        split
        · exact .some hserves
        · exact .none
  | quiet =>
    simp only [Irqs.step, Lines.step, h.serving, Option.map_eq_none_iff]
    by_cases hserving : t.serving = none
    · cases hnext : t.next enabled with
      | none =>
        have hquiet : s.pics.intr = false := by rw [Pics.intr, h.idle hserving hnext]; rfl
        rw [if_pos ⟨hserving, hquiet⟩, if_pos ⟨hserving, rfl⟩]
        exact .some h
      | some n =>
        rw [(h.accept hserving hnext).1, if_neg (by simp), if_neg (by simp)]
        exact .none
    · rw [if_neg fun hquiet => hserving hquiet.1, if_neg fun hquiet => hserving hquiet.1]
      exact .none
  | exit =>
    rw [Irqs.step, Lines.step, h.serving]
    cases hserving : t.serving with
    | none => exact .none
    | some n =>
      obtain ⟨hn, henabled⟩ := h.enabled n hserving
      rw [Option.map_some, if_neg (by simp)]
      simp only [hexits n hn henabled]
      exact .some (h.exit hserving)

/-! ### Runs -/

/-- The interrupts that the processor took from the slave. -/
def slaveVectors (trace : List Signal) : List UInt8 :=
  trace.filterMap fun i =>
    match i with
    | .accept vector => if PIC2_IRQ_INDEX ≤ vector then some vector else none
    | _ => none

private theorem vectorOf_ofMaster_lt (i : Fin 8) : ¬PIC2_IRQ_INDEX ≤ vectorOf (ofMaster i) := by
  revert i
  decide

private theorem vectorOf_ofSlave_ge (i : Fin 8) : PIC2_IRQ_INDEX ≤ vectorOf (ofSlave i) := by
  revert i
  decide

private theorem vectorOf_lt {m : Fin 16} (h : n < m) : vectorOf n < vectorOf m := by
  revert n m
  decide

/-- One signal leaves the lines of the slave that were served, or serves one before them. -/
private theorem Lines.step_served {u : Lines} {i : Signal} (h : t.step enabled i = some u) :
    slaveVectors [i] = [] ∧ u.served = t.served ∨
      ∃ k, slaveVectors [i] = [vectorOf (ofSlave k)] ∧ (∀ m ∈ t.served, ofSlave k < m) ∧
        u.served = insert (ofSlave k) t.served := by
  cases i with
  | raise n =>
    rw [Lines.step] at h
    split at h
    · cases h
    · cases h
      exact .inl ⟨rfl, rfl⟩
  | quiet =>
    rw [Lines.step] at h
    split at h
    · cases h
      exact .inl ⟨rfl, rfl⟩
    · cases h
  | exit =>
    rw [Lines.step] at h
    split at h
    · cases h
    · cases h
      exact .inl ⟨rfl, rfl⟩
  | accept vector =>
    rw [Lines.step] at h
    split at h
    · rename_i n _ hnext
      split at h
      · rename_i hvector
        cases h
        subst hvector
        obtain ⟨k, rfl⟩ | ⟨k, rfl⟩ := line_cases n
        · refine .inl ⟨?_, if_pos (ofMaster_lt k)⟩
          simp [slaveVectors, vectorOf_ofMaster_lt]
        · have hwaits := List.find?_some hnext
          simp only [Lines.waits, not_ofSlave_lt, decide_false, Bool.false_or, Bool.and_eq_true,
            decide_eq_true_eq] at hwaits
          refine .inr ⟨k, ?_, hwaits.2.2, if_neg (not_ofSlave_lt k)⟩
          simp [slaveVectors, vectorOf_ofSlave_ge]
      · cases h
    · cases h

/-- A line of the slave is served only before those of the slave that were. -/
private theorem Lines.slaveVectors_decreasing {t' : Lines} {trace : List Signal}
    (h : trace.foldlM (Lines.step enabled) t = some t') :
    (slaveVectors trace).Pairwise (· > ·) ∧
      ∀ v ∈ slaveVectors trace, ∃ i, v = vectorOf (ofSlave i) ∧ ∀ m ∈ t.served, ofSlave i < m := by
  induction trace generalizing t with
  | nil => exact ⟨.nil, by simp [slaveVectors]⟩
  | cons i trace ih =>
    rw [List.foldlM_cons, Option.bind_eq_bind, Option.bind_eq_some_iff] at h
    obtain ⟨u, hu, hrest⟩ := h
    obtain ⟨hdecreasing, hbelow⟩ := ih hrest
    have happend : slaveVectors (i :: trace) = slaveVectors [i] ++ slaveVectors trace :=
      List.filterMap_append (l := [i])
    rw [happend]
    obtain ⟨hnone, hserved⟩ | ⟨k, hone, hfirst, hserved⟩ := Lines.step_served hu
    · rw [hserved] at hbelow
      rw [hnone, List.nil_append]
      exact ⟨hdecreasing, hbelow⟩
    · rw [hserved] at hbelow
      rw [hone, List.singleton_append, List.pairwise_cons]
      refine ⟨⟨fun v hv => ?_, hdecreasing⟩, fun v hv => ?_⟩
      · obtain ⟨j, rfl, hj⟩ := hbelow v hv
        exact vectorOf_lt (hj _ (Finset.mem_insert_self _ _))
      · obtain rfl | hv := List.mem_cons.1 hv
        · exact ⟨k, rfl, hfirst⟩
        · obtain ⟨j, hjv, hj⟩ := hbelow v hv
          exact ⟨j, hjv, fun m hm => hj m (Finset.mem_insert_of_mem hm)⟩

private theorem length_slaveVectors_le {t' : Lines} {trace : List Signal}
    (h : trace.foldlM (Lines.step enabled) t = some t') : (slaveVectors trace).length ≤ 8 := by
  obtain ⟨hdecreasing, hbelow⟩ := Lines.slaveVectors_decreasing h
  have hnodup : (slaveVectors trace).Nodup := hdecreasing.imp fun hlt => (UInt8.ne_of_lt hlt).symm
  have hsubset : slaveVectors trace ⊆ (List.finRange 8).map fun i => vectorOf (ofSlave i) := by
    intro v hv
    obtain ⟨i, rfl, _⟩ := hbelow v hv
    exact List.mem_map_of_mem (List.mem_finRange i)
  simpa using (hnodup.subperm hsubset).length_le

/-- The controllers as the kernel sets them up, with some toggles. -/
def Pics.started (p : Pics) (toggles : List (UInt8 × Bool)) : Pics :=
  toggles.foldl (fun p t => p.picToggleIrq t.1 t.2) (p.initPic PIC1_IRQ_INDEX PIC2_IRQ_INDEX).initIrqs

private theorem Serves.started {p : Pics} (hmaster : p.master.isr = ∅) (hslave : p.slave.isr = ∅)
    (toggles : List (UInt8 × Bool)) :
    Serves (enabledBy toggles) ⟨p.started toggles, none⟩ ⟨∅, ∅, none⟩ := by
  obtain ⟨hready, hrequests⟩ := p.ready_init
  obtain ⟨hready', hrequests'⟩ := hready.toggles toggles
  have hregisters : (p.started toggles).requests = (∅, ∅, ∅, ∅) :=
    (hrequests'.trans hrequests).trans (by rw [hmaster, hslave])
  obtain ⟨hmirr, hmisr, hsirr, hsisr⟩ : (p.started toggles).master.irr = ∅ ∧ (p.started toggles).master.isr = ∅ ∧
      (p.started toggles).slave.irr = ∅ ∧ (p.started toggles).slave.isr = ∅ := by
    simpa [Pics.requests] using hregisters
  refine ⟨hready', by simp, by simp [hmirr], by simp [hsirr], hmisr, by simp [hsisr], by simp, ?_, rfl⟩
  intro n hn
  cases hn

/-- After the setup of the kernel the controllers serve the lines that are on in the order of `Lines`, signal by signal, and
the processor takes at most one interrupt of each line of the slave, each before those that it took. -/
theorem irqs_lockstep {p : Pics} (hmaster : p.master.isr = ∅) (hslave : p.slave.isr = ∅) (toggles : List (UInt8 × Bool))
    (exits : UInt8 → Option UInt32) (hexits : ExitsByLine (enabledBy toggles) exits) (trace : List Signal) :
    Option.Rel (Serves (enabledBy toggles)) (trace.foldlM (Irqs.step exits) ⟨p.started toggles, none⟩)
        (trace.foldlM (Lines.step (enabledBy toggles)) ⟨∅, ∅, none⟩) ∧
      ∀ s, trace.foldlM (Irqs.step exits) ⟨p.started toggles, none⟩ = some s →
        (slaveVectors trace).Pairwise (· > ·) ∧ (slaveVectors trace).length ≤ 8 := by
  have hlockstep := Machine.lockstep (fun s t i (h : Serves (enabledBy toggles) s t) => h.step hexits i)
    (Serves.started hmaster hslave toggles) trace
  refine ⟨hlockstep, fun s hs => ?_⟩
  rw [hs] at hlockstep
  generalize ht : trace.foldlM (Lines.step (enabledBy toggles)) ⟨∅, ∅, none⟩ = t at hlockstep
  cases hlockstep with
  | some hserves => exact ⟨(Lines.slaveVectors_decreasing ht).1, length_slaveVectors_le ht⟩

/-- A chip with nothing in service. -/
def Pic.unused : Pic := ⟨0xFF, ∅, ∅, 0, 0, false, false, .mask⟩

/-- The timer, the keyboard and line 4 of the slave are on. -/
def threeLines : List (UInt8 × Bool) := [(PIT_IRQ, true), (KEYBOARD_IRQ, true), (12, true)]

/-- The timer is served first and again, then the keyboard, and the line of the slave last. -/
def threeRequests : List Signal := [.raise 1, .raise 12, .raise 0, .accept 0x20, .raise 0, .exit, .accept 0x20, .exit,
  .accept 0x21, .exit, .accept 0x2c, .exit, .quiet]

theorem irqs_lockstep_threeLines :
    Option.Rel (Serves (enabledBy threeLines))
      (threeRequests.foldlM (Irqs.step fun vector => some (vector - PIC1_IRQ_INDEX).toUInt32)
        ⟨Pics.started ⟨.unused, .unused⟩ threeLines, none⟩)
      (some ⟨∅, {12}, none⟩) := by
  have h := (irqs_lockstep (p := ⟨.unused, .unused⟩) rfl rfl threeLines
    (fun vector => some (vector - PIC1_IRQ_INDEX).toUInt32) (by unfold ExitsByLine; decide) threeRequests).1
  have hlines : threeRequests.foldlM (Lines.step (enabledBy threeLines)) ⟨∅, ∅, none⟩ = some ⟨∅, {12}, none⟩ := by decide
  rwa [hlines] at h

end DBolOS.Dev
