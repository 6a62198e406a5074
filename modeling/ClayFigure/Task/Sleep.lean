/-
# Sleeping

`task_msleep` of `task/schedule.c` turns a time into a tick to wait for, and yields until the
tick counter is past it. The tick is kept in 32 bits while the counter has 64, and the time is
multiplied in 32 bits before it is divided. The result says exactly for which times and which
states of the counter the sleep has the length that was asked for.
-/

import ClayFigure.Task.Schedule

namespace ClayFigure

/-! ## The code -/

/-- `MS_TO_TICKS` of a `uint32_t`, with `IRQ0_FREQUENCY` 1000. -/
def msToTicks (ms : Nat) : Nat := mul32 ms 1000 / 1000

/-- `timeout_tick`, a `uint32_t`. -/
def timeoutTick (now ms : Nat) : Nat := add64 now (msToTicks ms) % wordSize32

/-- The loop of `task_msleep` for at most `fuel` tests, the first of them with reading `i` of the
counter: the reading that ends it. -/
def msleepLoop (ticks : Nat → Nat) (timeout : Nat) : Nat → Nat → Option Nat
  | 0, _ => none
  | fuel + 1, i =>
      if isBefore (ticks i) timeout then msleepLoop ticks timeout fuel (i + 1) else some i

/-- `task_msleep`; `ticks` are the values `get_current_ticks` returns one after the other, of
which the first goes into the deadline. -/
def taskMsleep (ticks : Nat → Nat) (ms fuel : Nat) : Option Nat :=
  msleepLoop ticks (timeoutTick (ticks 0) ms) fuel 1

/-! ## How long it takes -/

/-- What is read of a counter that starts at `start` and has advanced by `elapsed i` ticks at
reading `i`. -/
def readings (start : Nat) (elapsed : Nat → Nat) (i : Nat) : Nat := add64 start (elapsed i)

/-- A counter as the task sees it: it does not go back, and a call does not see half of the
range of a 64-bit word go by. -/
structure Advances (elapsed : Nat → Nat) : Prop where
  start : elapsed 0 = 0
  mono : Monotone elapsed
  bound : ∀ i, elapsed i < 2 ^ 63

/-- A sleep ends with a reading that is `ms` ticks after the start, and with the first such
reading, whatever is read. -/
def SleepsFor (start ms : Nat) : Prop :=
  ∀ elapsed : Nat → Nat, Advances elapsed →
    (∀ fuel i, taskMsleep (readings start elapsed) ms fuel = some i → ms ≤ elapsed i) ∧
    ∀ i, 0 < i → ms ≤ elapsed i → (∀ j, 0 < j → j < i → elapsed j < ms) →
      taskMsleep (readings start elapsed) ms i = some i

/-! ## One test -/

/-- The test of the loop when `v` ticks have gone by. -/
def stillWaits (start ms v : Nat) : Bool := isBefore (add64 start v) (timeoutTick start ms)

/-- The deadline is the sum of the start and the time, of which no bit is lost. -/
def DeadlineFits (start ms : Nat) : Prop :=
  ms * 1000 < 2 ^ 32 ∧ (start + ms < 2 ^ 32 ∨ 2 ^ 64 ≤ start + ms)

theorem stillWaits_iff (start ms v : Nat) : stillWaits start ms v = true ↔
    2 ^ 63 ≤ sub64 (add64 start v) (timeoutTick start ms) := decide_eq_true_iff

theorem msToTicks_le (ms : Nat) : msToTicks ms ≤ ms :=
  (Nat.div_le_div_right (Nat.mod_le ..)).trans (Nat.mul_div_cancel ms (by decide)).le

theorem msToTicks_eq_iff {ms : Nat} : msToTicks ms = ms ↔ ms * 1000 < 2 ^ 32 := by
  unfold msToTicks mul32 wordSize32
  omega

/-- With a deadline that fits, the test tells whether the time is over. -/
theorem DeadlineFits.stillWaits {start ms v : Nat} (h : DeadlineFits start ms)
    (hstart : start < 2 ^ 64) (hms : ms < 2 ^ 32) (hv : v < 2 ^ 63) :
    stillWaits start ms v = true ↔ v < ms := by
  obtain ⟨hmul, hsum⟩ := h
  rw [stillWaits_iff, timeoutTick, msToTicks_eq_iff.mpr hmul]
  unfold sub64 add64 wordSize wordSize32
  omega

/-- A test that is right for every time gone by has a deadline that fits. -/
theorem deadlineFits_of_stillWaits {start ms : Nat} (hstart : start < 2 ^ 64) (hms : ms < 2 ^ 32)
    (h : ∀ v < 2 ^ 63, stillWaits start ms v = true ↔ v < ms) : DeadlineFits start ms := by
  have hle := msToTicks_le ms
  have hticks := @msToTicks_eq_iff ms
  unfold DeadlineFits
  rw [← hticks]
  -- the last tick to wait for and the first to end with fix the deadline
  have hlast := h (ms - 1) (by omega)
  have hend := h ms (by omega)
  have hfar := h (2 ^ 63 - 1) (by decide)
  rw [stillWaits_iff] at hlast hend hfar
  unfold timeoutTick sub64 add64 wordSize wordSize32 at hlast hend hfar
  generalize msToTicks ms = ticks at *
  omega

/-! ## The loop -/

section Loop

variable {ticks : Nat → Nat} {timeout fuel i k : Nat}

theorem msleepLoop_some (h : msleepLoop ticks timeout fuel i = some k) :
    i ≤ k ∧ isBefore (ticks k) timeout = false := by
  induction fuel generalizing i with
  | zero => cases h
  | succ fuel ih =>
      unfold msleepLoop at h
      cases htest : isBefore (ticks i) timeout with
      | true =>
          rw [htest, if_pos rfl] at h
          obtain ⟨hle, hend⟩ := ih h
          exact ⟨Nat.le_of_succ_le hle, hend⟩
      | false =>
          rw [htest, if_neg Bool.false_ne_true, Option.some.injEq] at h
          subst h
          exact ⟨le_rfl, htest⟩

/-- The loop ends with the first reading that passes the test. -/
theorem msleepLoop_eq (hle : i ≤ k) (hfuel : k < i + fuel)
    (hwait : ∀ j, i ≤ j → j < k → isBefore (ticks j) timeout = true)
    (hend : isBefore (ticks k) timeout = false) :
    msleepLoop ticks timeout fuel i = some k := by
  induction fuel generalizing i with
  | zero => exact absurd hfuel (not_lt.mpr hle)
  | succ fuel ih =>
      unfold msleepLoop
      rcases hle.eq_or_lt with rfl | hlt
      · rw [hend, if_neg Bool.false_ne_true]
      · rw [hwait i le_rfl hlt, if_pos rfl]
        apply ih (Nat.succ_le_of_lt hlt) (by omega)
        exact fun j hj => hwait j (Nat.le_of_succ_le hj)

end Loop

theorem readings_zero {start : Nat} (hstart : start < 2 ^ 64) {elapsed : Nat → Nat}
    (h : Advances elapsed) : readings start elapsed 0 = start := by
  rw [readings, h.start, add64, Nat.add_zero]
  exact Nat.mod_eq_of_lt hstart

/-- A counter that shows `v` ticks gone by from the first test on. -/
theorem advances_jump {v : Nat} (hv : v < 2 ^ 63) : Advances fun i => if i = 0 then 0 else v where
  start := if_pos rfl
  mono := by
    intro i j hij
    dsimp only
    split_ifs with hi hj
    · exact le_rfl
    · exact Nat.zero_le v
    · omega
    · exact le_rfl
  bound i := by
    split_ifs
    · decide
    · exact hv

/-- When a sleep is as long as it was asked to be. -/
theorem sleepsFor_iff (start ms : Nat) (hstart : start < 2 ^ 64) (hms : ms < 2 ^ 32) :
    SleepsFor start ms ↔ DeadlineFits start ms := by
  constructor
  · intro h
    apply deadlineFits_of_stillWaits hstart hms
    intro v hv
    obtain ⟨honly, hfirst⟩ := h _ (advances_jump hv)
    have hzero := readings_zero hstart (advances_jump hv)
    unfold taskMsleep at honly hfirst
    rw [hzero] at honly hfirst
    have hread : readings start (fun i => if i = 0 then 0 else v) 1 = add64 start v := rfl
    constructor
    · intro hwait
      by_contra hge
      have hleave := hfirst 1 one_pos (by simpa using hge) fun j hpos hlt => by omega
      obtain ⟨-, hend⟩ := msleepLoop_some hleave
      rw [hread] at hend
      exact absurd (hwait.symm.trans hend) (by decide)
    · intro hlt
      by_contra hleave
      have hend : isBefore (readings start (fun i => if i = 0 then 0 else v) 1)
          (timeoutTick start ms) = false := by
        rw [hread]
        exact Bool.eq_false_iff.mpr hleave
      have hloop := msleepLoop_eq le_rfl (show 1 < 1 + 1 by decide)
        (fun j hle hlt => absurd hle (not_le.mpr hlt)) hend
      have hle := honly 1 1 hloop
      exact absurd hlt (not_lt.mpr (by simpa using hle))
  · intro hfits elapsed helapsed
    have htest : ∀ i, isBefore (readings start elapsed i) (timeoutTick start ms) = true ↔
        elapsed i < ms := fun i => hfits.stillWaits hstart hms (helapsed.bound i)
    unfold taskMsleep
    rw [readings_zero hstart helapsed]
    constructor
    · intro fuel i hleave
      obtain ⟨-, hend⟩ := msleepLoop_some hleave
      by_contra hshort
      exact absurd ((htest i).mpr (not_le.mp hshort)) (by simp [hend])
    · intro i hpos helapsed hbefore
      apply msleepLoop_eq hpos (by omega)
      · exact fun j hle hlt => (htest j).mpr (hbefore j hle hlt)
      · exact Bool.eq_false_iff.mpr fun h => absurd ((htest i).mp h) (not_lt.mpr helapsed)

/-- Ten milliseconds after the start of the machine. -/
theorem sleepsFor_ten : SleepsFor 0 10 :=
  (sleepsFor_iff 0 10 (by decide) (by decide)).mpr ⟨by decide, Or.inl (by decide)⟩

/-- Fifty days later the same call returns at once. -/
theorem not_sleepsFor_ten : ¬ SleepsFor 0x100000000 10 := by
  intro h
  have hleave : taskMsleep (readings 0x100000000 fun i => if i = 0 then 0 else 0) 10 1 = some 1 := by
    decide
  have hle := (h _ (advances_jump (by decide))).1 1 1 hleave
  exact absurd hle (by decide)

end ClayFigure
