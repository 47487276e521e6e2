import Mathlib

/-!
# The timer

`pit.c`: the counters of the timer interrupt.  The divisor of the timer is rounded down, and the interrupt adds the
remainder up to correct the time for it.  The remainder counts cycles of the timer and is compared with the frequency
of the interrupts; and the rounding makes the interrupts come too early, so that the time would have to stay behind
their number where the correction runs ahead of it.
-/

namespace DBolOS.Pit

def freqHz : Nat := 1193182

def targetFreqHz : Nat := 1000

/-- The static variables of `pit.c`. -/
structure Clock where
  expectedClockFraction : Nat
  reloadTime : Nat
  systemTime : Nat
  systemClockFractions : Nat
  contextSwitch : Nat
  deriving DecidableEq

def Clock.zero : Clock := ⟨0, 0, 0, 0, 0⟩

def getReloadTime : Nat := freqHz / targetFreqHz % 2 ^ 16

namespace Clock

def getExpectedClockFraction (s : Clock) : Nat := (freqHz + 2 ^ 32 - s.reloadTime * targetFreqHz) % 2 ^ 32

/-- `pit_init`, but for the two bytes it sends to the timer, which are those of `reload_time`. -/
def pitInit (s : Clock) : Clock :=
  let s := { s with reloadTime := getReloadTime }
  { s with expectedClockFraction := s.getExpectedClockFraction }

def getSystemTime (s : Clock) : Nat := s.systemTime

/-- The interrupt, and whether it goes on to `switch_process` when the scheduler runs. -/
def timerIrq (s : Clock) : Clock × Bool :=
  let s := { s with systemTime := (s.systemTime + 1) % 2 ^ 32, contextSwitch := (s.contextSwitch + 1) % 2 ^ 32,
                    systemClockFractions := (s.systemClockFractions + s.expectedClockFraction) % 2 ^ 32 }
  let s :=
    if s.systemClockFractions > targetFreqHz then
      { s with systemTime := (s.systemTime + 1) % 2 ^ 32,
               systemClockFractions := s.systemClockFractions - targetFreqHz }
    else s
  if s.contextSwitch = 1 then ({ s with contextSwitch := 0 }, true) else (s, false)

/-- The state after `n` interrupts. -/
def after : Nat → Clock
  | 0 => Clock.zero.pitInit
  | n + 1 => (after n).timerIrq.1

/-- None of the first `n` interrupts makes the time smaller. -/
def NoWrap (n : Nat) : Prop := ∀ k < n, (after k).getSystemTime ≤ (after (k + 1)).getSystemTime

instance (n : Nat) : Decidable (NoWrap n) :=
  inferInstanceAs (Decidable (∀ k < n, (after k).getSystemTime ≤ (after (k + 1)).getSystemTime))

/-- The time since the start, in periods of the frequency aimed at and rounded down. -/
def elapsed (n : Nat) : Nat := n * getReloadTime * targetFreqHz / freqHz

/-! ### The counters -/

/-- The counters after `n` interrupts of which `extra` counted twice. -/
structure Counts (s : Clock) (n extra : Nat) : Prop where
  fraction : s.expectedClockFraction = 182
  time : s.systemTime = n + extra
  rest : s.systemClockFractions + 1000 * extra = 182 * n
  upper : s.systemClockFractions ≤ 1000
  lower : 0 < n → 0 < s.systemClockFractions
  switches : s.contextSwitch = 0

private theorem Counts.zero : Counts (after 0) 0 0 := by
  constructor <;> decide

/-- One interrupt counts once, or twice when the remainders exceed the threshold. -/
private theorem Counts.timerIrq {s : Clock} {n extra : Nat} (h : Counts s n extra)
    (hwrap : s.systemTime ≤ s.timerIrq.1.systemTime)
    (hlt : s.systemTime < 2 ^ 32) : ∃ extra', Counts s.timerIrq.1 (n + 1) extra' ∧ s.timerIrq.1.systemTime < 2 ^ 32 := by
  obtain ⟨hfraction, htime, hrest, hupper, hlower, hswitches⟩ := h
  have hsum : (s.systemClockFractions + 182) % 4294967296 = s.systemClockFractions + 182 := by omega
  by_cases hover : targetFreqHz < s.systemClockFractions + 182
  · have hirq : s.timerIrq.1 = ⟨182, s.reloadTime, ((s.systemTime + 1) % 2 ^ 32 + 1) % 2 ^ 32,
        s.systemClockFractions + 182 - targetFreqHz, 0⟩ := by
      simp [Clock.timerIrq, hfraction, hsum, hover, hswitches]
    rw [hirq] at hwrap ⊢
    simp only [targetFreqHz] at hover
    refine ⟨extra + 1, ⟨rfl, ?_, ?_, ?_, ?_, rfl⟩, ?_⟩
    all_goals simp only [targetFreqHz] at hwrap ⊢; omega
  · have hirq : s.timerIrq.1 = ⟨182, s.reloadTime, (s.systemTime + 1) % 2 ^ 32, s.systemClockFractions + 182, 0⟩ := by
      simp [Clock.timerIrq, hfraction, hsum, hover, hswitches]
    rw [hirq] at hwrap ⊢
    simp only [targetFreqHz] at hover
    refine ⟨extra, ⟨rfl, ?_, ?_, ?_, ?_, rfl⟩, ?_⟩
    all_goals simp only at hwrap ⊢; omega

private theorem counts_after {n : Nat} (h : NoWrap n) :
    ∃ extra, Counts (after n) n extra ∧ (after n).systemTime < 2 ^ 32 := by
  induction n with
  | zero => exact ⟨0, Counts.zero, by decide⟩
  | succ n ih =>
    obtain ⟨extra, hcounts, hlt⟩ := ih fun k hk => h k (by omega)
    exact hcounts.timerIrq (h n (by omega)) hlt

/-- The scheduler is asked for at every interrupt. -/
theorem timerIrq_switches {n : Nat} (h : NoWrap n) : (after n).timerIrq.2 = true := by
  obtain ⟨extra, hcounts, -⟩ := counts_after h
  simp [Clock.timerIrq, hcounts.switches]
  split <;> rfl

/-- The time runs ahead by a tick in five or six interrupts. -/
private theorem getSystemTime_after {n : Nat} (h : NoWrap n) : (after n).getSystemTime = n + (182 * n - 1) / 1000 := by
  obtain ⟨extra, ⟨-, htime, hrest, hupper, hlower, -⟩, -⟩ := counts_after h
  rw [getSystemTime, htime]
  omega

/-- The error is bounded by one tick for the first five interrupts only. -/
theorem drift_le_one_iff {n : Nat} (h : NoWrap n) :
    |((after n).getSystemTime : Int) - elapsed n| ≤ 1 ↔ n ≤ 5 := by
  have htime := getSystemTime_after h
  have helapsed : elapsed n = n * 1193000 / 1193182 := by
    simp [elapsed, getReloadTime, freqHz, targetFreqHz, Nat.mul_assoc]
  rw [abs_le, htime, helapsed]
  constructor
  · intro hdrift
    by_contra hn
    -- the interrupts come early, so less time than their number has passed
    have hearly : n * 1193000 / 1193182 < n := Nat.div_lt_of_lt_mul (by omega)
    have hahead : 1 ≤ (182 * n - 1) / 1000 := by omega
    omega
  · intro hn
    interval_cases n <;> decide

/-- After six interrupts the time is two ticks ahead. -/
theorem not_drift_le_one : ¬ |((after 6).getSystemTime : Int) - elapsed 6| ≤ 1 := by
  decide

theorem drift_five : |((after 5).getSystemTime : Int) - elapsed 5| ≤ 1 := by
  have hwrap : NoWrap 5 := by decide
  exact (drift_le_one_iff hwrap).2 (Nat.le_refl 5)

end Clock

end DBolOS.Pit
