/-
# Resetting a port

`xhci_hub_reset` reads the status register of a port until it shows the port enabled, at most a
hundred times, and `usb_hub_port_setup` takes any value that is not negative for a speed. The
register is the controller's: it may show any value at any read. The test for the end of the
polls is in the loop that ends with them, so that it is never met.
-/

import Mathlib.Data.List.Basic

namespace ClayFigure

/-! ## The code -/

/-- `XHCI_PORTSC_CCS`. -/
abbrev portscCcs : Nat := 1

/-- `XHCI_PORTSC_PED`. -/
abbrev portscPed : Nat := 2

/-- `XHCI_PORTSC_PR`. -/
abbrev portscPr : Nat := 16

/-- `PLS_U0`. -/
abbrev plsU0 : Nat := 0

/-- `PLS_POLLING`. -/
abbrev plsPolling : Nat := 7

/-- The field `XHCI_PORTSC_PLS`. -/
def portscPls (portsc : Nat) : Nat := (portsc >>> 5) &&& 0x0f

/-- The field `XHCI_PORTSC_SPEED`. -/
def portscSpeed (portsc : Nat) : Nat := (portsc >>> 10) &&& 0x0f

/-- `K_TIMEOUT` as a number. -/
abbrev kTimeout : Int := 10

/-- `speed_from_xhci`. -/
def speedFromXhci : Nat → Int
  | 1 => 0
  | 2 => 1
  | 3 => 2
  | 4 => 3
  | _ => -1

/-- What the code does to the register. -/
inductive PortAccess
  | read (portsc : Nat)
  | write (portsc : Nat)
  deriving DecidableEq, Repr

/-- The loop of `xhci_hub_reset`: the value of `portsc` behind it or the value returned in it, and
the accesses. The next read is number `i`. -/
def pollLoop (reg : Nat → Nat) : Nat → Nat → Nat → Except Int Nat × List PortAccess
  | 0, _, portsc => (.ok portsc, [])
  | timeout + 1, i, _ =>
      let portsc := reg i
      if portsc &&& portscCcs = 0 then (.error (-1), [.read portsc])
      else if portsc &&& portscPed ≠ 0 then (.ok portsc, [.read portsc])
      else if timeout + 1 = 0 then (.error kTimeout, [.read portsc])
      else
        let (result, accesses) := pollLoop reg timeout (i + 1) portsc
        (result, .read portsc :: accesses)

/-- `xhci_hub_reset` behind its first read. -/
def resetFrom (reg : Nat → Nat) (portsc : Nat) : Int × List PortAccess :=
  let (result, accesses) := pollLoop reg 100 1 portsc
  match result with
  | .error value => (value, accesses)
  | .ok portsc => (speedFromXhci (portscSpeed portsc), accesses)

/-- `xhci_hub_reset` for a register that shows `reg i` when it is read for the `i`-th time: the
value returned, and the accesses. -/
def xhciHubReset (reg : Nat → Nat) : Int × List PortAccess :=
  let portsc := reg 0
  if portsc &&& portscCcs = 0 then (-1, [.read portsc])
  else if portscPls portsc = plsU0 then
    let (value, accesses) := resetFrom reg portsc
    (value, .read portsc :: accesses)
  else if portscPls portsc = plsPolling then
    let (value, accesses) := resetFrom reg portsc
    (value, .read portsc :: .write (portsc ||| portscPr) :: accesses)
  else (-1, [.read portsc])

/-- What `usb_hub_port_setup` does. -/
inductive SetupStep
  | setSpeed (speed : Int)
  | setAddress
  | disconnect
  | configure
  | kfree
  deriving DecidableEq, Repr

/-- `usb_hub_port_setup`: the value returned and the steps on the way, for the answers of the
reset, of `usb_set_address` and of `configure_usb_device`. -/
def usbHubPortSetup (reset setAddress count : Int) : Int × List SetupStep :=
  if reset < 0 then (reset, [.kfree])
  else if setAddress < 0 then
    (setAddress, [.setSpeed reset, .setAddress, .disconnect, .kfree])
  else if count < 0 then (setAddress, [.setSpeed reset, .setAddress, .configure, .kfree])
  else (0, [.setSpeed reset, .setAddress, .configure])

/-! ## What the driver saw -/

/-- The port is connected and enabled. -/
def Enabled (portsc : Nat) : Prop := portsc &&& portscCcs ≠ 0 ∧ portsc &&& portscPed ≠ 0

/-- A read of the call showed the port connected and enabled. -/
def SawEnabled (reg : Nat → Nat) : Prop :=
  ∃ portsc, .read portsc ∈ (xhciHubReset reg).2 ∧ Enabled portsc

/-- The call answers a speed only if the port was seen enabled, and in every other case sends
`usb_hub_port_setup` to its failure path. -/
def ResetSound (reg : Nat → Nat) : Prop :=
  (0 ≤ (xhciHubReset reg).1 → SawEnabled reg) ∧
    (¬ SawEnabled reg → (xhciHubReset reg).1 < 0 ∧ ∀ setAddress count,
      usbHubPortSetup (xhciHubReset reg).1 setAddress count = ((xhciHubReset reg).1, [.kfree]))

/-! ## What the code answers -/

/-- The port is connected, and not enabled yet. -/
def Waiting (portsc : Nat) : Prop := portsc &&& portscCcs ≠ 0 ∧ portsc &&& portscPed = 0

theorem Waiting.not_enabled {portsc : Nat} (h : Waiting portsc) : ¬ Enabled portsc :=
  fun henabled => henabled.2 h.2

theorem enabled_of_not_waiting {portsc : Nat} (hccs : portsc &&& portscCcs ≠ 0)
    (h : ¬ Waiting portsc) : Enabled portsc := ⟨hccs, fun hped => h ⟨hccs, hped⟩⟩

theorem speedFromXhci_nonneg {speed : Nat} : 0 ≤ speedFromXhci speed ↔ 1 ≤ speed ∧ speed ≤ 4 := by
  unfold speedFromXhci
  split
  case h_5 h1 h2 h3 h4 =>
    refine iff_of_false (by decide) fun h => ?_
    have hne1 : speed ≠ 1 := h1
    have hne2 : speed ≠ 2 := h2
    have hne3 : speed ≠ 3 := h3
    have hne4 : speed ≠ 4 := h4
    omega
  all_goals decide

/-- One poll of a port that stays as it is. -/
theorem pollLoop_step {reg : Nat → Nat} {i : Nat} (hwait : Waiting (reg i))
    (timeout portsc : Nat) : pollLoop reg (timeout + 1) i portsc =
      ((pollLoop reg timeout (i + 1) (reg i)).1,
        .read (reg i) :: (pollLoop reg timeout (i + 1) (reg i)).2) := by
  simp only [pollLoop, if_neg hwait.1, hwait.2, ne_eq, not_true_eq_false, if_false,
    Nat.succ_ne_zero]

/-- The loop with a port that stays as it is: it ends with the last value. -/
theorem pollLoop_waiting {reg : Nat → Nat} {timeout i : Nat}
    (hwait : ∀ k ≤ timeout, Waiting (reg (i + k))) (portsc : Nat) :
    (pollLoop reg (timeout + 1) i portsc).1 = .ok (reg (i + timeout)) ∧
      ∀ p, .read p ∈ (pollLoop reg (timeout + 1) i portsc).2 → Waiting p := by
  have hfirst : Waiting (reg i) := hwait 0 (Nat.zero_le timeout)
  induction timeout generalizing i portsc with
  | zero =>
      rw [pollLoop_step hfirst]
      refine ⟨rfl, fun p hp => ?_⟩
      cases List.mem_singleton.mp hp
      exact hfirst
  | succ timeout ih =>
      have hrest (k : Nat) (hk : k ≤ timeout) : Waiting (reg (i + 1 + k)) := by
        rw [Nat.add_right_comm]
        exact hwait (k + 1) (Nat.succ_le_succ hk)
      obtain ⟨hresult, hreads⟩ := ih hrest (reg i) (hrest 0 (Nat.zero_le timeout))
      rw [pollLoop_step hfirst]
      refine ⟨?_, fun p hp => ?_⟩
      · rw [hresult, Nat.add_right_comm, Nat.add_assoc]
      · rcases List.mem_cons.mp hp with heq | hmem
        · cases heq
          exact hfirst
        · exact hreads p hmem

/-- The loop with a port that changes in time: it ends with an error, or with a value that was
read and shows the port enabled. -/
theorem pollLoop_of_not_waiting {reg : Nat → Nat} {timeout i : Nat}
    (h : ∃ k < timeout, ¬ Waiting (reg (i + k))) (portsc : Nat) :
    (pollLoop reg timeout i portsc).1 = .error (-1) ∨
      ∃ p, (pollLoop reg timeout i portsc).1 = .ok p ∧
        .read p ∈ (pollLoop reg timeout i portsc).2 ∧ Enabled p := by
  induction timeout generalizing i portsc with
  | zero =>
      obtain ⟨k, hk, -⟩ := h
      exact absurd hk (Nat.not_lt_zero k)
  | succ timeout ih =>
      by_cases hccs : reg i &&& portscCcs = 0
      · left
        simp only [pollLoop, if_pos hccs]
      · by_cases hped : reg i &&& portscPed = 0
        · have hrest : ∃ k < timeout, ¬ Waiting (reg (i + 1 + k)) := by
            obtain ⟨k, hk, hnot⟩ := h
            cases k with
            | zero => exact absurd ⟨hccs, hped⟩ hnot
            | succ k =>
                refine ⟨k, Nat.lt_of_succ_lt_succ hk, ?_⟩
                rwa [Nat.add_right_comm]
          rw [pollLoop_step ⟨hccs, hped⟩]
          rcases ih hrest (reg i) with herror | ⟨p, hok, hmem, henabled⟩
          · exact .inl herror
          · exact .inr ⟨p, hok, List.mem_cons_of_mem _ hmem, henabled⟩
        · right
          refine ⟨reg i, ?_, ?_, hccs, hped⟩
          · simp only [pollLoop, if_neg hccs, ne_eq, hped, not_false_eq_true, if_true]
          · simp only [pollLoop, if_neg hccs, ne_eq, hped, not_false_eq_true, if_true,
              List.mem_singleton]

theorem resetFrom_error {reg : Nat → Nat} {portsc : Nat} {value : Int}
    (h : (pollLoop reg 100 1 portsc).1 = .error value) :
    resetFrom reg portsc = (value, (pollLoop reg 100 1 portsc).2) := by
  rw [resetFrom]
  generalize pollLoop reg 100 1 portsc = polled at h ⊢
  obtain ⟨result, accesses⟩ := polled
  obtain rfl : result = .error value := h
  rfl

theorem resetFrom_ok {reg : Nat → Nat} {portsc p : Nat}
    (h : (pollLoop reg 100 1 portsc).1 = .ok p) :
    resetFrom reg portsc = (speedFromXhci (portscSpeed p), (pollLoop reg 100 1 portsc).2) := by
  rw [resetFrom]
  generalize pollLoop reg 100 1 portsc = polled at h ⊢
  obtain ⟨result, accesses⟩ := polled
  obtain rfl : result = .ok p := h
  rfl

/-- A register that is reset at all is polled, behind the first read and perhaps a write. -/
theorem xhciHubReset_eq {reg : Nat → Nat} (hccs : reg 0 &&& portscCcs ≠ 0)
    (hpls : portscPls (reg 0) = plsU0 ∨ portscPls (reg 0) = plsPolling) :
    (xhciHubReset reg).1 = (resetFrom reg (reg 0)).1 ∧ ∀ p, .read p ∈ (xhciHubReset reg).2 ↔
      p = reg 0 ∨ .read p ∈ (resetFrom reg (reg 0)).2 := by
  by_cases hu0 : portscPls (reg 0) = plsU0
  · simp only [xhciHubReset, if_neg hccs, if_pos hu0, List.mem_cons, PortAccess.read.injEq,
      implies_true, and_self]
  · have hpolling := hpls.resolve_left hu0
    simp only [xhciHubReset, if_neg hccs, if_neg hu0, if_pos hpolling, List.mem_cons,
      PortAccess.read.injEq, reduceCtorEq, false_or, implies_true, and_self]

/-- The polls of a port that stays as it is run out: the answer is the speed that the last one
shows, and only the first read may have shown the port enabled. -/
theorem xhciHubReset_waiting {reg : Nat → Nat} (hccs : reg 0 &&& portscCcs ≠ 0)
    (hpls : portscPls (reg 0) = plsU0 ∨ portscPls (reg 0) = plsPolling)
    (hwait : ∀ k ≤ 99, Waiting (reg (1 + k))) :
    (xhciHubReset reg).1 = speedFromXhci (portscSpeed (reg 100)) ∧
      (Waiting (reg 0) → ¬ SawEnabled reg) := by
  obtain ⟨hvalue, hreads⟩ := xhciHubReset_eq hccs hpls
  obtain ⟨hresult, hwaiting⟩ := pollLoop_waiting hwait (reg 0)
  rw [resetFrom_ok hresult] at hvalue hreads
  refine ⟨hvalue, ?_⟩
  rintro hfirst ⟨p, hp, henabled⟩
  rcases (hreads p).mp hp with rfl | hmem
  · exact hfirst.not_enabled henabled
  · exact (hwaiting p hmem).not_enabled henabled

theorem resetSound_iff_imp (reg : Nat → Nat) :
    ResetSound reg ↔ (0 ≤ (xhciHubReset reg).1 → SawEnabled reg) := by
  refine ⟨fun h => h.1, fun h => ⟨h, fun hnot => ?_⟩⟩
  have hneg : (xhciHubReset reg).1 < 0 := Int.lt_of_not_ge fun hpos => hnot (h hpos)
  exact ⟨hneg, fun setAddress count => if_pos hneg⟩

/-- `xhci_hub_reset` tells a speed only of a port that it saw enabled, and sends the port to the
failure path otherwise, exactly if one of the 101 values that it may read shows the port not
connected or already enabled, or the state of the link lets it not reset the port, or the last
value has none of the four speeds in it. Else it runs out of polls and tells the speed that the
last one shows. -/
theorem resetSound_iff (reg : Nat → Nat) :
    ResetSound reg ↔ (∃ i ≤ 100, ¬ Waiting (reg i)) ∨
      (portscPls (reg 0) ≠ plsU0 ∧ portscPls (reg 0) ≠ plsPolling) ∨
      ¬ (1 ≤ portscSpeed (reg 100) ∧ portscSpeed (reg 100) ≤ 4) := by
  rw [resetSound_iff_imp]
  by_cases hccs : reg 0 &&& portscCcs = 0
  · have hfail : (xhciHubReset reg).1 = -1 := by
      simp only [xhciHubReset, if_pos hccs]
    refine iff_of_true (fun h => ?_) (.inl ⟨0, Nat.zero_le _, fun h => h.1 hccs⟩)
    rw [hfail] at h
    exact absurd h (by decide)
  · by_cases hpls : portscPls (reg 0) = plsU0 ∨ portscPls (reg 0) = plsPolling
    · obtain ⟨hvalue, hreads⟩ := xhciHubReset_eq hccs hpls
      have hnot : ¬ (portscPls (reg 0) ≠ plsU0 ∧ portscPls (reg 0) ≠ plsPolling) :=
        fun h => hpls.elim h.1 h.2
      by_cases hpolls : ∃ k < 100, ¬ Waiting (reg (1 + k))
      · -- a poll ends the loop
        obtain ⟨k, hk, hk'⟩ := id hpolls
        refine iff_of_true (fun hpos => ?_) (.inl ⟨1 + k, by omega, hk'⟩)
        rcases pollLoop_of_not_waiting hpolls (reg 0) with herror | ⟨p, hok, hmem, henabled⟩
        · rw [hvalue, resetFrom_error herror] at hpos
          exact absurd hpos (show ¬ (0 : Int) ≤ -1 by decide)
        · refine ⟨p, (hreads p).mpr (.inr ?_), henabled⟩
          rwa [resetFrom_ok hok]
      · have hwait (k : Nat) (hk : k ≤ 99) : Waiting (reg (1 + k)) :=
          of_not_not fun h => hpolls ⟨k, by omega, h⟩
        obtain ⟨hspeed, hnone⟩ := xhciHubReset_waiting hccs hpls hwait
        by_cases hfirst : Waiting (reg 0)
        · -- no read shows the port enabled
          have hall : ¬ ∃ i ≤ 100, ¬ Waiting (reg i) := by
            rintro ⟨i, hi, hi'⟩
            cases i with
            | zero => exact hi' hfirst
            | succ i =>
                have h := hwait i (by omega)
                rw [Nat.add_comm] at h
                exact hi' h
          rw [hspeed, speedFromXhci_nonneg, or_iff_right hall, or_iff_right hnot]
          exact ⟨fun h hspeeds => hnone hfirst (h hspeeds), fun h hspeeds => absurd hspeeds h⟩
        · refine iff_of_true (fun _ => ?_) (.inl ⟨0, Nat.zero_le _, hfirst⟩)
          exact ⟨reg 0, (hreads _).mpr (.inl rfl), enabled_of_not_waiting hccs hfirst⟩
    · obtain ⟨hu0, hpolling⟩ := not_or.mp hpls
      have hfail : (xhciHubReset reg).1 = -1 := by
        simp only [xhciHubReset, if_neg hccs, if_neg hu0, if_neg hpolling]
      refine iff_of_true (fun h => ?_) (.inr (.inl ⟨hu0, hpolling⟩))
      rw [hfail] at h
      exact absurd h (by decide)

/-- A full-speed port that is connected, polls its link and is never enabled. -/
def stuckPort : Nat → Nat := fun _ => 0x6e1

/-- The polls run out, and the call answers a speed. -/
theorem stuckPort_not_resetSound : ¬ ResetSound stuckPort := by
  rw [resetSound_iff_imp]
  intro h
  have hwaiting : Waiting 0x6e1 := ⟨by decide, by decide⟩
  obtain ⟨hspeed, hnone⟩ := @xhciHubReset_waiting stuckPort hwaiting.1 (.inr (by decide))
    fun _ _ => hwaiting
  refine hnone hwaiting (h ?_)
  rw [hspeed]
  decide

end ClayFigure
