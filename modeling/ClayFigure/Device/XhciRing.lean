/-
# The rings of the xHCI controller

`xhci_trb_queue` of `device/usb/xhci/xhci.c` puts transfer request blocks on a ring whose
last cell is a Link TRB, and the controller reads them: it takes a block whose cycle bit is
its own cycle state, and a Link TRB sends it on to an address. The producer writes the
control word of the Link TRB and nothing else of it. The results follow the ring up to the
first wrap-around, and from there to a state in which the controller reads something else.
-/

import Mathlib.Data.List.Basic
import Mathlib.Logic.Function.Basic
import ClayFigure.Kernel.Global
import ClayFigure.Math.Transition

namespace ClayFigure

open ClayFigure.Math

/-! ## The code -/

/-- `xhci_trb_t`. -/
structure Trb where
  ptr : Nat
  status : Nat
  control : Nat
  deriving DecidableEq, Repr

/-- `TRB_C`. -/
abbrev trbC : Nat := 1

/-- `TRB_LK_TC`. -/
abbrev trbLkTc : Nat := 2

/-- `TR_LINK`. -/
abbrev trLink : Nat := 6

/-- `TRB_TYPE`. -/
def trbType (control : Nat) : Nat := (control >>> 10) &&& 0x3f

/-- `xhci_ring_t`; `trbs` is the physical address of the cells. -/
structure XhciRing where
  trbs : Nat
  trbCount : Nat
  enqueue : Nat
  cs : Nat

/-- Memory: the block at each address. -/
abbrev TrbMemory : Type := Nat → Trb

/-- The address of `trbs[i]`. -/
def XhciRing.cell (ring : XhciRing) (i : Nat) : Nat := ring.trbs + 16 * i

/-- `xhci_trb_queue`: the ring, the memory and the caller's block afterwards. -/
def xhciTrbQueue (ring : XhciRing) (mem : TrbMemory) (trb : Trb) : XhciRing × TrbMemory × Trb :=
  let trb := { trb with control := trb.control ||| ring.cs }
  let mem := Function.update mem (ring.cell ring.enqueue) trb
  let enqueue := ring.enqueue + 1
  if enqueue = ring.trbCount - 1 then
    let control := (trbLkTc ||| ring.cs) ||| (trLink <<< 10)
    let link := ring.cell enqueue
    ({ ring with enqueue := 0, cs := if ring.cs = 0 then 1 else 0 },
      Function.update mem link { mem link with control := control }, trb)
  else ({ ring with enqueue := enqueue }, mem, trb)

/-! ## The controller -/

/-- The ring with its reader. `queued` and `read` record what was put on the ring and what
the reader took. -/
structure RingState where
  mem : TrbMemory
  ring : XhciRing
  dequeue : Nat
  ccs : Nat
  queued : List Trb
  read : List Trb

namespace RingState

/-- One step of the reader; `none` while the block it looks at is not its own. -/
def consume (s : RingState) : Option RingState :=
  let trb := s.mem s.dequeue
  if trb.control &&& trbC ≠ s.ccs then none
  else if trbType trb.control = trLink then
    some { s with
      dequeue := trb.ptr
      ccs := if trb.control &&& trbLkTc ≠ 0 then (if s.ccs = 0 then 1 else 0) else s.ccs }
  else some { s with dequeue := s.dequeue + 16, read := s.read ++ [trb] }

/-- The producer puts a block on the ring. -/
def queue (s : RingState) (trb : Trb) : RingState :=
  let (ring, mem, stored) := xhciTrbQueue s.ring s.mem trb
  { s with ring := ring, mem := mem, queued := s.queued ++ [stored] }

end RingState

inductive RingCall
  | queue (trb : Trb)
  | consume

/-- Requests are not Link TRBs, and none is put over a block that is still to be read. -/
inductive RingStep : RingState → RingCall → RingState → Prop
  | queue {s : RingState} {trb : Trb} (htype : trbType trb.control ≠ trLink)
      (hkeep : s.queued.length < s.read.length + (s.ring.trbCount - 1)) :
      RingStep s (.queue trb) (s.queue trb)
  | consume {s t : RingState} (hconsume : s.consume = some t) : RingStep s .consume t

/-- A zeroed ring of at least two cells, and a reader at its first cell. -/
structure RingInit (s : RingState) : Prop where
  address : 0 < s.ring.trbs
  cells : 2 ≤ s.ring.trbCount
  zeroed : ∀ i < s.ring.trbCount, s.mem (s.ring.cell i) = ⟨0, 0, 0⟩
  enqueue : s.ring.enqueue = 0
  cs : s.ring.cs = 1
  dequeue : s.dequeue = s.ring.trbs
  ccs : s.ccs = 1
  queued : s.queued = []
  read : s.read = []

def ringSystem : System RingState RingCall := ⟨RingInit, RingStep⟩

/-- The reader has read what was queued, in order and once each, and it stops only when
nothing is left. -/
structure RingState.ReadsQueued (s : RingState) : Prop where
  inOrder : s.read <+: s.queued
  complete : s.consume = none → s.read = s.queued

/-- A request does not fill the last cell before the Link TRB. -/
def RingState.BeforeLink (s : RingState) : RingCall → Prop
  | .queue _ => s.ring.enqueue + 1 ≠ s.ring.trbCount - 1
  | .consume => True

/-! ## Control words -/

theorem or_one_and_trbC (control : Nat) : (control ||| 1) &&& trbC = 1 := by
  rw [Nat.and_one_is_mod, show 2 = 2 ^ 1 from rfl, Nat.or_mod_two_pow]
  rcases Nat.mod_two_eq_zero_or_one control with h | h <;> rw [Nat.pow_one, h] <;> rfl

theorem trbType_or_one (control : Nat) : trbType (control ||| 1) = trbType control := by
  rw [trbType, trbType, Nat.shiftRight_eq_div_pow, Nat.or_div_two_pow,
    Nat.shiftRight_eq_div_pow, show 1 / 2 ^ 10 = 0 from rfl, Nat.or_zero]

namespace RingState

/-! ## The first lap -/

/-- Up to the first wrap-around: the cells hold what was queued, with the cycle bit of the
reader, and the reader is at the cell behind what it has read. -/
structure FirstLap (s : RingState) : Prop where
  address : 0 < s.ring.trbs
  ccs : s.ccs = 1
  dequeue : s.dequeue = s.ring.cell s.read.length
  cells : ∀ i trb, s.queued[i]? = some trb → s.mem (s.ring.cell i) = trb ∧
    trb.control &&& trbC = 1 ∧ trbType trb.control ≠ trLink
  inOrder : s.read <+: s.queued

variable {s t : RingState}

theorem FirstLap.length_le (h : s.FirstLap) : s.read.length ≤ s.queued.length :=
  h.inOrder.length_le

/-- While something is left the reader takes the next block. -/
theorem FirstLap.consume (h : s.FirstLap) (hleft : s.read.length < s.queued.length) :
    ∃ trb, s.queued[s.read.length]? = some trb ∧ s.consume =
      some { s with dequeue := s.dequeue + 16, read := s.read ++ [trb] } := by
  have hnext := List.getElem?_eq_getElem hleft
  obtain ⟨hcell, hcycle, htype⟩ := h.cells _ _ hnext
  refine ⟨_, hnext, ?_⟩
  simp only [RingState.consume, h.dequeue, hcell, hcycle, h.ccs, ne_eq, not_true_eq_false,
    if_false, if_neg htype]

/-- What the reader takes keeps it in the lap. -/
theorem FirstLap.read (h : s.FirstLap) {trb : Trb}
    (hnext : s.queued[s.read.length]? = some trb) :
    FirstLap { s with dequeue := s.dequeue + 16, read := s.read ++ [trb] } := by
  refine ⟨h.address, h.ccs, ?_, h.cells, ?_⟩
  · simp only [h.dequeue, XhciRing.cell, List.length_append, List.length_singleton]
    omega
  · have heq := List.prefix_iff_eq_take.mp h.inOrder
    have htake : s.read ++ [trb] = s.queued.take (s.read.length + 1) := by
      rw [List.take_add_one, hnext, ← heq]
      rfl
    rw [htake]
    exact List.take_prefix _ _

/-- Nothing is left once the lengths agree. -/
theorem FirstLap.eq_of_length (h : s.FirstLap) (hlen : ¬ s.read.length < s.queued.length) :
    s.read = s.queued :=
  h.inOrder.eq_of_length (Nat.le_antisymm h.length_le (Nat.not_lt.mp hlen))

theorem FirstLap.readsQueued (h : s.FirstLap) : s.ReadsQueued := by
  refine ⟨h.inOrder, fun hnone => h.eq_of_length fun hleft => ?_⟩
  obtain ⟨trb, -, hsome⟩ := h.consume hleft
  rw [hnone] at hsome
  cases hsome

/-- The producer is still in its first lap; the cells ahead of it are zero. -/
structure Filling (s : RingState) : Prop extends s.FirstLap where
  enqueue : s.ring.enqueue = s.queued.length
  room : s.queued.length + 1 < s.ring.trbCount
  cs : s.ring.cs = 1
  zeroed : ∀ i, s.queued.length ≤ i → i < s.ring.trbCount → s.mem (s.ring.cell i) = ⟨0, 0, 0⟩

theorem Filling.init (h : RingInit s) : s.Filling := by
  refine ⟨⟨h.address, h.ccs, ?_, ?_, ?_⟩, ?_, ?_, h.cs, fun i _ hi => h.zeroed i hi⟩
  · rw [h.dequeue, h.read]
    rfl
  · simp [h.queued]
  · simp [h.queued, h.read]
  · rw [h.enqueue, h.queued, List.length_nil]
  · rw [h.queued]
    exact h.cells

/-- A reader that takes something has something left. -/
theorem Filling.consume_eq_some (h : s.Filling) (hconsume : s.consume = some t) :
    t.Filling := by
  by_cases hleft : s.read.length < s.queued.length
  · obtain ⟨trb, hnext, hsome⟩ := h.toFirstLap.consume hleft
    rw [hconsume] at hsome
    obtain rfl := Option.some.inj hsome
    exact ⟨h.toFirstLap.read hnext, h.enqueue, h.room, h.cs, h.zeroed⟩
  · -- The cell behind the last block has a zero cycle bit.
    have hlen := Nat.not_lt.mp hleft
    have hzero := h.zeroed s.read.length hlen (by have := h.length_le; have := h.room; omega)
    rw [RingState.consume, h.dequeue, hzero, h.ccs] at hconsume
    cases hconsume

theorem cell_ne {ring : XhciRing} {i j : Nat} (hne : i ≠ j) : ring.cell i ≠ ring.cell j := by
  unfold XhciRing.cell
  omega

/-- The block as it is stored. -/
def stored (s : RingState) (trb : Trb) : Trb := { trb with control := trb.control ||| s.ring.cs }

/-- The cells after a block has been stored at the end of the first lap's blocks. -/
theorem Filling.cells_update (h : s.Filling) {trb : Trb} (htype : trbType trb.control ≠ trLink)
    (i : Nat) (trb' : Trb) (hi : (s.queued ++ [s.stored trb])[i]? = some trb') :
    Function.update s.mem (s.ring.cell s.ring.enqueue) (s.stored trb) (s.ring.cell i) = trb' ∧
      trb'.control &&& trbC = 1 ∧ trbType trb'.control ≠ trLink := by
  by_cases hlt : i < s.queued.length
  · rw [List.getElem?_append_left hlt] at hi
    rw [Function.update_of_ne (cell_ne (by rw [h.enqueue]; omega))]
    exact h.cells i trb' hi
  · have hend : i = s.queued.length := by
      have := (List.getElem?_eq_some_iff.mp hi).1
      rw [List.length_append, List.length_singleton] at this
      omega
    rw [hend, List.getElem?_concat_length] at hi
    obtain rfl := Option.some.inj hi
    rw [hend, h.enqueue, Function.update_self]
    simp only [stored, h.cs]
    exact ⟨trivial, or_one_and_trbC _, by rwa [trbType_or_one]⟩

theorem queue_of_before {trb : Trb} (hbefore : s.BeforeLink (.queue trb)) :
    s.queue trb = { s with
      ring := { s.ring with enqueue := s.ring.enqueue + 1 }
      mem := Function.update s.mem (s.ring.cell s.ring.enqueue) (s.stored trb)
      queued := s.queued ++ [s.stored trb] } := by
  have hlink : ¬ s.ring.enqueue + 1 = s.ring.trbCount - 1 := hbefore
  simp only [RingState.queue, xhciTrbQueue, if_neg hlink]
  rfl

/-- A request before the last cell. -/
theorem Filling.queue (h : s.Filling) {trb : Trb} (htype : trbType trb.control ≠ trLink)
    (hbefore : s.BeforeLink (.queue trb)) : (s.queue trb).Filling := by
  have hlink : s.ring.enqueue + 1 ≠ s.ring.trbCount - 1 := hbefore
  have hroom := h.room
  have henqueue := h.enqueue
  rw [queue_of_before hbefore]
  refine ⟨⟨h.address, h.ccs, h.dequeue, h.cells_update htype, ?_⟩, ?_, ?_, h.cs, ?_⟩
  · exact h.inOrder.trans (List.prefix_append _ _)
  · simp [henqueue]
  · simp only [List.length_append, List.length_singleton]
    omega
  · intro i hi hcount
    simp only [List.length_append, List.length_singleton] at hi
    have hne : s.ring.cell i ≠ s.ring.cell s.ring.enqueue := cell_ne (by omega)
    exact (Function.update_of_ne hne ..).trans (h.zeroed i (by omega) hcount)

/-! ## The end of the first lap -/

/-- The lap is full and the Link TRB is written; its address is still zero. -/
structure Full (s : RingState) : Prop extends s.FirstLap where
  enqueue : s.ring.enqueue = 0
  count : s.queued.length + 1 = s.ring.trbCount
  nonempty : s.queued ≠ []
  link : s.mem (s.ring.cell s.queued.length) = ⟨0, 0, 0x1803⟩

/-- The request that fills the last cell. -/
theorem Filling.queue_last (h : s.Filling) {trb : Trb} (htype : trbType trb.control ≠ trLink)
    (hlast : ¬ s.BeforeLink (.queue trb)) : (s.queue trb).Full := by
  have hlink : s.ring.enqueue + 1 = s.ring.trbCount - 1 := not_not.mp hlast
  have henqueue := h.enqueue
  have hroom := h.room
  have hzero : Function.update s.mem (s.ring.cell s.ring.enqueue) (s.stored trb)
      (s.ring.cell (s.ring.enqueue + 1)) = ⟨0, 0, 0⟩ :=
    (Function.update_of_ne (cell_ne (by omega)) ..).trans
      (h.zeroed _ (by omega) (by omega))
  have hqueue : s.queue trb = { s with
      ring := { s.ring with enqueue := 0, cs := 0 }
      mem := Function.update
        (Function.update s.mem (s.ring.cell s.ring.enqueue) (s.stored trb))
        (s.ring.cell (s.ring.enqueue + 1)) ⟨0, 0, 0x1803⟩
      queued := s.queued ++ [s.stored trb] } := by
    simp only [RingState.queue, xhciTrbQueue, if_pos hlink, h.cs]
    rw [show ({ trb with control := trb.control ||| 1 } : Trb) = s.stored trb by
      rw [stored, h.cs], hzero]
    rfl
  rw [hqueue]
  refine ⟨⟨h.address, h.ccs, h.dequeue, fun i trb' hi => ?_, ?_⟩, rfl, ?_, by simp, ?_⟩
  · obtain ⟨hcell, hcontrol⟩ := h.cells_update htype i trb' hi
    have hlt := (List.getElem?_eq_some_iff.mp hi).1
    simp only [List.length_append, List.length_singleton] at hlt
    refine ⟨?_, hcontrol⟩
    have hne : s.ring.cell i ≠ s.ring.cell (s.ring.enqueue + 1) := cell_ne (by omega)
    exact (Function.update_of_ne hne ..).trans hcell
  · exact h.inOrder.trans (List.prefix_append _ _)
  · simp only [List.length_append, List.length_singleton]
    omega
  · simp only [List.length_append, List.length_singleton, henqueue]
    exact Function.update_self ..

/-- The reader reads the lap to its end. -/
theorem Full.drain (h : s.Full) :
    ∃ t, ringSystem.Steps s t ∧ t.Full ∧ t.read = t.queued ∧ t.mem = s.mem := by
  obtain ⟨n, hn⟩ : ∃ n, n = s.queued.length - s.read.length := ⟨_, rfl⟩
  induction n generalizing s with
  | zero =>
      exact ⟨s, .refl, h, h.toFirstLap.eq_of_length (by omega), rfl⟩
  | succ n ih =>
      obtain ⟨trb, hnext, hsome⟩ := h.toFirstLap.consume (by omega)
      have hfull : Full { s with dequeue := s.dequeue + 16, read := s.read ++ [trb] } :=
        ⟨h.toFirstLap.read hnext, h.enqueue, h.count, h.nonempty, h.link⟩
      obtain ⟨t, hsteps, ht, hread, hmem⟩ := ih hfull (by
        simp only [List.length_append, List.length_singleton]
        omega)
      exact ⟨t, .head ⟨.consume, .consume hsome⟩ hsteps, ht, hread, hmem⟩

/-- The Link TRB sends the reader to address 0. -/
theorem Full.follow (h : s.Full) (hread : s.read = s.queued) :
    s.consume = some { s with dequeue := 0, ccs := 0 } := by
  have hlink : s.mem s.dequeue = ⟨0, 0, 0x1803⟩ := by
    rw [h.dequeue, hread]
    exact h.link
  simp only [RingState.consume, hlink, h.ccs]
  rfl

/-- A request does not touch address 0. -/
theorem queue_mem_zero (haddress : 0 < s.ring.trbs) (trb : Trb) :
    (s.queue trb).mem 0 = s.mem 0 := by
  have hne (i : Nat) : 0 ≠ s.ring.cell i := by
    unfold XhciRing.cell
    omega
  simp only [RingState.queue, xhciTrbQueue]
  split
  · dsimp only
    rw [Function.update_of_ne (hne _), Function.update_of_ne (hne _)]
  · exact Function.update_of_ne (hne _) ..

theorem queue_queued (trb : Trb) : (s.queue trb).queued = s.queued ++ [s.stored trb] := by
  simp only [RingState.queue, xhciTrbQueue]
  split
  · rfl
  · rfl

/-- At address 0 the reader either takes a block nobody queued or it is stuck. -/
theorem not_readsQueued_of_zero (haddress : 0 < s.ring.trbs) (hdequeue : s.dequeue = 0)
    (hccs : s.ccs = 0) (hread : s.read = s.queued) (hroom : 1 < s.ring.trbCount)
    (htype : trbType (s.mem 0).control ≠ trLink) : ∃ t, ringSystem.Steps s t ∧ ¬ t.ReadsQueued := by
  by_cases hcycle : (s.mem 0).control &&& trbC = 0
  · have hconsume : s.consume = some { s with dequeue := 16, read := s.read ++ [s.mem 0] } := by
      simp only [RingState.consume, hdequeue, hccs, hcycle, ne_eq, not_true_eq_false, if_false,
        if_neg htype]
    refine ⟨_, .single ⟨.consume, .consume hconsume⟩, fun h => ?_⟩
    have hlen := h.inOrder.length_le
    simp only [List.length_append, List.length_singleton, hread] at hlen
    omega
  · have hstep : RingStep s (.queue ⟨0, 0, 0⟩) (s.queue ⟨0, 0, 0⟩) :=
      .queue (by decide) (by rw [hread]; omega)
    refine ⟨_, .single ⟨_, hstep⟩, fun h => ?_⟩
    have hnone : (s.queue ⟨0, 0, 0⟩).consume = none := by
      have hdequeue' : (s.queue ⟨0, 0, 0⟩).dequeue = 0 := hdequeue
      have hccs' : (s.queue ⟨0, 0, 0⟩).ccs = 0 := hccs
      simp only [RingState.consume, hdequeue', hccs', queue_mem_zero haddress, ne_eq, hcycle,
        not_false_eq_true, if_true]
    have hall := congrArg List.length (h.complete hnone)
    have hread' : (s.queue ⟨0, 0, 0⟩).read = s.read := rfl
    rw [queue_queued, hread', hread, List.length_append, List.length_singleton] at hall
    omega

/-- Behind the Link TRB there is a run that the reader does not follow. -/
theorem Full.not_readsQueued (h : s.Full) (htype : trbType (s.mem 0).control ≠ trLink) :
    ∃ t, ringSystem.Steps s t ∧ ¬ t.ReadsQueued := by
  obtain ⟨u, hsteps, hu, hread, hmem⟩ := h.drain
  have hpos := List.length_pos_of_ne_nil hu.nonempty
  have hcount := hu.count
  obtain ⟨t, hsteps', hbad⟩ :=
    not_readsQueued_of_zero (s := { u with dequeue := 0, ccs := 0 }) hu.address rfl rfl hread
      (show 1 < u.ring.trbCount by omega) (by rw [hmem]; exact htype)
  refine ⟨t, hsteps.trans (.head ⟨.consume, .consume (hu.follow hread)⟩ hsteps'), hbad⟩

end RingState

/-- Every state of a run that stays before the Link TRB. -/
theorem filling_of_reachable {s : RingState}
    (hreach : ringSystem.ReachableWhen RingState.BeforeLink s) : s.Filling := by
  apply hreach.invariant fun s => RingState.Filling.init
  intro s call t h hbefore hstep
  cases hstep with
  | queue htype => exact h.queue htype hbefore
  | consume hconsume => exact h.consume_eq_some hconsume

/-- Before the first wrap-around the reader reads what is queued, in order and once each. The
request that brings the ring there can be followed by a run in which it does not, unless a
Link TRB happens to lie at address 0. -/
theorem ringSystem_reads {s : RingState}
    (hreach : ringSystem.ReachableWhen RingState.BeforeLink s) :
    s.ReadsQueued ∧ ∀ trb t, RingStep s (.queue trb) t → ¬ s.BeforeLink (.queue trb) →
      trbType (s.mem 0).control ≠ trLink → ∃ u, ringSystem.Steps t u ∧ ¬ u.ReadsQueued := by
  refine ⟨(filling_of_reachable hreach).readsQueued, ?_⟩
  intro trb t hstep hlast hzero
  have h := filling_of_reachable hreach
  cases hstep with
  | queue htype =>
      apply (h.queue_last htype hlast).not_readsQueued
      rwa [RingState.queue_mem_zero h.address]

/-! ## The command ring -/

/-- The command ring of `configure_xhci`, in a memory that is zero. -/
def commandRing : RingState where
  mem := fun _ => ⟨0, 0, 0⟩
  ring := ⟨0x1000000, 16, 0, 1⟩
  dequeue := 0x1000000
  ccs := 1
  queued := []
  read := []

/-- The block of `xhci_cmd_enable_slot`. -/
def enableSlot : Trb := ⟨0, 0, 9 <<< 10⟩

theorem commandRing_init : RingInit commandRing :=
  ⟨by decide, by decide, fun _ _ => rfl, rfl, rfl, rfl, rfl, rfl, rfl⟩

/-- Fourteen commands fit before the Link TRB, whether or not they are read. -/
theorem commandRing_fill {k : Nat} (hk : k ≤ 14) :
    ∃ s, ringSystem.ReachableWhen RingState.BeforeLink s ∧ s.ring.trbCount = 16 ∧
      s.ring.enqueue = k ∧ s.queued.length = k ∧ trbType (s.mem 0).control ≠ trLink ∧
        0 < s.ring.trbs := by
  induction k with
  | zero => exact ⟨_, .init commandRing_init, rfl, rfl, rfl, by decide, by decide⟩
  | succ k ih =>
      obtain ⟨s, hreach, hcount, henqueue, hlen, hzero, haddress⟩ := ih (by omega)
      have hbefore : s.BeforeLink (.queue enableSlot) := by
        show s.ring.enqueue + 1 ≠ s.ring.trbCount - 1
        omega
      have hstep : RingStep s (.queue enableSlot) (s.queue enableSlot) :=
        .queue (by decide) (by omega)
      have hring := congrArg RingState.ring (RingState.queue_of_before hbefore)
      refine ⟨_, .step hreach hbefore hstep, ?_, ?_, ?_, ?_, ?_⟩
      · rw [hring, hcount]
      · rw [hring, henqueue]
      · rw [RingState.queue_queued, List.length_append, List.length_singleton, hlen]
      · rwa [RingState.queue_mem_zero haddress]
      · rwa [hring]

/-- The fifteenth command is the first that may go astray. -/
theorem commandRing_fifteenth : ∃ s t u, s.ReadsQueued ∧ s.queued.length = 14 ∧
    RingStep s (.queue enableSlot) t ∧ ringSystem.Steps t u ∧ ¬ u.ReadsQueued := by
  obtain ⟨s, hreach, hcount, henqueue, hlen, hzero, -⟩ := commandRing_fill (Nat.le_refl 14)
  have hlast : ¬ s.BeforeLink (.queue enableSlot) := not_not.mpr (by omega)
  have hstep : RingStep s (.queue enableSlot) (s.queue enableSlot) := .queue (by decide) (by omega)
  obtain ⟨u, hsteps, hbad⟩ := (ringSystem_reads hreach).2 _ _ hstep hlast hzero
  exact ⟨s, _, u, (ringSystem_reads hreach).1, hlen, hstep, hsteps, hbad⟩

/-- A run of the command ring in which the controller does not read what was queued. -/
theorem commandRing_astray : ∃ u, ringSystem.Reachable u ∧ ¬ u.ReadsQueued := by
  obtain ⟨s, hreach, hcount, henqueue, hlen, hzero, haddress⟩ := commandRing_fill (Nat.le_refl 14)
  have hlast : ¬ s.BeforeLink (.queue enableSlot) := not_not.mpr (by omega)
  have hstep : RingStep s (.queue enableSlot) (s.queue enableSlot) := .queue (by decide) (by omega)
  have hfull := (filling_of_reachable hreach).queue_last (by decide) hlast
  obtain ⟨u, hsteps, hbad⟩ :=
    hfull.not_readsQueued (by rwa [RingState.queue_mem_zero haddress])
  have hqueue : ringSystem.Reachable (s.queue enableSlot) :=
    .step (hreach.mono fun _ _ _ => trivial) trivial hstep
  exact ⟨u, System.Steps.reachable hsteps hqueue, hbad⟩

end ClayFigure
