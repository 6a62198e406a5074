/-
# The event ring

The controller writes events into the cells of a ring and marks them with a cycle bit that
changes with every lap; `xhci_process_events` tells new entries from old ones by that bit
alone and moves each event into one of three fifos. It takes the events in their order, each
of them once, but it does not look at what `fifo_write` answers: an event whose fifo is full
is gone. The task that calls it has looked at all ports before and has put connections into the
fifo of the ports as well.
-/

import Mathlib.Logic.Function.Basic
import ClayFigure.Device.XhciCommand
import ClayFigure.Lib.Fifo
import ClayFigure.Math.Queue

namespace ClayFigure

open ClayFigure.Math

/-! ## The code -/

/-- `ER_TRANSFER`. -/
abbrev erTransfer : Nat := 32

/-- `ER_PORT_STATUS_CHANGE`. -/
abbrev erPortStatusChange : Nat := 34

/-- `XHCI_PORTSC_CCS`. -/
abbrev xhciPortscCcs : Nat := 0x1

/-- `XHCI_PORTSC_PED`. -/
abbrev xhciPortscPed : Nat := 0x2

/-- `XHCI_PORTSC_PR`. -/
abbrev xhciPortscPr : Nat := 0x10

/-- `XHCI_PORTSC_PLS_MASK << XHCI_PORTSC_PLS_SHIFT`. -/
abbrev xhciPortscPls : Nat := 0xf <<< 5

/-- `XHCI_PORTSC_CSC`. -/
abbrev xhciPortscCsc : Nat := 0x20000

/-- `usb_port_connecton_event_t`. -/
structure PortConnectionEvent where
  port : Nat
  isConnect : Nat
  deriving DecidableEq, Repr

/-- The port of a status change event, an unsigned 32-bit number. -/
def eventPort (trb : Trb) : Nat := (((trb.ptr >>> 24) &&& 0xff) + 0xffffffff) % 0x100000000

/-- What is written back to `PORTSC`. -/
def portscClear (portsc : Nat) : Nat :=
  let pclear := portsc &&& (0xffffffff ^^^ (xhciPortscPed ||| xhciPortscPr))
  let pclear := pclear &&& (0xffffffff ^^^ xhciPortscPls)
  pclear ||| (1 <<< 5)

/-- What is noted of a port of which `PORTSC` has been read, if its connection has changed. -/
def connectionEvent (port portsc : Nat) : Option PortConnectionEvent :=
  if portsc &&& xhciPortscCsc ≠ 0 then
    some ⟨port % 256, if portsc &&& xhciPortscCcs ≠ 0 then 1 else 0⟩
  else none

/-- The fifos of the driver hold `XHCI_RING_ITEMS` items. -/
abbrev EventFifo (α : Type) := BoundedQueue α xhciRingItems

namespace EventFifo

variable {α : Type}

/-- `fifo_write`, whose status the callers do not look at. -/
def fifoWrite (f : EventFifo α) (a : α) : EventFifo α := (f.enqueue a).getD f

/-- `fifo_read`; of an empty fifo nothing is read. -/
def fifoRead (f : EventFifo α) : Option (α × EventFifo α) := f.dequeue

end EventFifo

/-- Where the task `xhci_event` is, with the local copies of the index and the cycle state: in its
loop over the ports, between two calls of `xhci_process_events`, before it looks at an entry,
before it dispatches it, before it advances. -/
inductive EventPc
  | scan
  | idle
  | look (dequeue cs : Nat)
  | dispatch (dequeue cs ctrl : Nat)
  | advance (dequeue cs : Nat)

/-- The driver and the controller. `trbs` is the physical address of the cells; `erdp` are
the two halves of the register, `portsc` what was written to the port registers. `enqueue`
and `pcs` are the producer's. The other fields record what has happened: the events the
controller wrote, those the driver dispatched with the values of `PORTSC` at these points, and how
many it has passed; what was read from each fifo; and the connections that the loop over the ports
has stored. -/
structure XhciEvents where
  cells : Nat → Trb
  trbs : Nat
  trbCount : Nat
  dequeue : Nat
  cs : Nat
  erdp : Nat × Nat
  portsc : List (Nat × Nat)
  xferEvts : EventFifo Trb
  cmdsEvts : EventFifo Trb
  portEvts : EventFifo PortConnectionEvent
  pc : EventPc
  enqueue : Nat
  pcs : Nat
  produced : List Trb
  dispatched : List Trb
  readings : List Nat
  passed : Nat
  xferRead : List Trb
  cmdsRead : List Trb
  portRead : List PortConnectionEvent
  noted : List PortConnectionEvent

inductive EventCall
  | post (trb : Trb)
  | scan (port portsc : Nat)
  | scanned
  | start
  | look
  | dispatch (portsc : Nat)
  | advance
  | readXfer
  | readCmds
  | readPort

namespace XhciEvents

/-- The controller writes an event. -/
def post (s : XhciEvents) (trb : Trb) : XhciEvents :=
  { s with
    cells := Function.update s.cells s.enqueue trb
    enqueue := if s.enqueue + 1 = s.trbCount then 0 else s.enqueue + 1
    pcs := if s.enqueue + 1 = s.trbCount then 1 - s.pcs else s.pcs
    produced := s.produced ++ [trb] }

/-- A port of which `portsc` has been read. -/
def notePort (s : XhciEvents) (port portsc : Nat) : XhciEvents :=
  { s with
    portEvts := (connectionEvent port portsc).elim s.portEvts s.portEvts.fifoWrite
    portsc := s.portsc ++ [(port, portscClear portsc)] }

/-- The switch over the type of an event. -/
def switch (s : XhciEvents) (type : Nat) (trb : Trb) (portsc : Nat) : XhciEvents :=
  if type = erTransfer then { s with xferEvts := s.xferEvts.fifoWrite trb }
  else if type = erCommandComplete then { s with cmdsEvts := s.cmdsEvts.fifoWrite trb }
  else if type = erPortStatusChange then s.notePort (eventPort trb) portsc
  else s

/-- The index is advanced and stored, and the controller told. -/
def advance (s : XhciEvents) (dequeue cs : Nat) : XhciEvents :=
  let next := (dequeue + 1) % 0x10000
  let wraps := next = s.trbCount
  let dequeue := if wraps then 0 else next
  let addr := s.trbs + 16 * dequeue
  { s with
    pc := .look dequeue (if wraps then (if cs = 0 then 1 else 0) else cs)
    cs := if wraps then (if cs = 0 then 1 else 0) else s.cs
    dequeue := dequeue
    erdp := ((addr &&& 0xffffffff) ||| (1 <<< 3), addr >>> 32)
    passed := s.passed + 1 }

end XhciEvents

/-- One step. The controller puts no event over an entry the driver has not passed; `portsc`
is what is read from the register of the port. -/
def eventStep (s : XhciEvents) : EventCall → Option XhciEvents
  | .post trb =>
      if trb.control &&& trbC = s.pcs ∧ s.produced.length < s.passed + s.trbCount then
        some (s.post trb)
      else none
  | .scan port portsc =>
      match s.pc with
      | .scan => some { s.notePort port portsc with
          noted := s.noted ++ if s.portEvts.items.length < xhciRingItems
            then (connectionEvent port portsc).toList else [] }
      | _ => none
  | .scanned =>
      match s.pc with
      | .scan => some { s with pc := .idle }
      | _ => none
  | .start =>
      match s.pc with
      | .idle => some { s with pc := .look (s.dequeue % 0x10000) (s.cs % 0x100) }
      | _ => none
  | .look =>
      match s.pc with
      | .look dequeue cs =>
          let ctrl := (s.cells dequeue).control
          if ctrl &&& trbC ≠ cs then some { s with pc := .idle }
          else some { s with pc := .dispatch dequeue cs ctrl }
      | _ => none
  | .dispatch portsc =>
      match s.pc with
      | .dispatch dequeue cs ctrl =>
          some { s.switch (trbType ctrl) (s.cells dequeue) portsc with
            pc := .advance dequeue cs
            dispatched := s.dispatched ++ [s.cells dequeue]
            readings := s.readings ++ [portsc] }
      | _ => none
  | .advance =>
      match s.pc with
      | .advance dequeue cs => some (s.advance dequeue cs)
      | _ => none
  | .readXfer => some (s.xferEvts.fifoRead.elim s fun (trb, f) =>
      { s with xferEvts := f, xferRead := s.xferRead ++ [trb] })
  | .readCmds => some (s.cmdsEvts.fifoRead.elim s fun (trb, f) =>
      { s with cmdsEvts := f, cmdsRead := s.cmdsRead ++ [trb] })
  | .readPort => some (s.portEvts.fifoRead.elim s fun (pcEvt, f) =>
      { s with portEvts := f, portRead := s.portRead ++ [pcEvt] })

/-- What `configure_xhci` sets up: a zeroed ring, index 0 and cycle state 1 on both sides. -/
structure XhciEventsInit (s : XhciEvents) : Prop where
  cells : ∀ i < s.trbCount, s.cells i = ⟨0, 0, 0⟩
  trbCount : 0 < s.trbCount ∧ s.trbCount < 0x10000
  dequeue : s.dequeue = 0
  cs : s.cs = 1
  xferEvts : s.xferEvts = .empty Trb xhciRingItems
  cmdsEvts : s.cmdsEvts = .empty Trb xhciRingItems
  portEvts : s.portEvts = .empty PortConnectionEvent xhciRingItems
  pc : s.pc = .scan
  enqueue : s.enqueue = 0
  pcs : s.pcs = 1
  produced : s.produced = []
  dispatched : s.dispatched = []
  readings : s.readings = []
  passed : s.passed = 0
  xferRead : s.xferRead = []
  cmdsRead : s.cmdsRead = []
  portRead : s.portRead = []
  noted : s.noted = []

def eventSystem : System XhciEvents EventCall :=
  ⟨XhciEventsInit, fun s c t => eventStep s c = some t⟩

namespace XhciEvents

/-! ## Laps of the ring -/

/-- The cycle bit of the `k`-th event on a ring of `n` cells. -/
def cycleOf (n k : Nat) : Nat := (1 + k / n) % 2

/-- Where the local copies are, with `d` entries passed. -/
def PcOk (s : XhciEvents) : EventPc → Prop
  | .scan => s.dispatched = [] ∧ s.passed = 0
  | .idle => s.dispatched.length = s.passed
  | .look dequeue cs =>
      dequeue = s.passed % s.trbCount ∧ cs = cycleOf s.trbCount s.passed ∧
        s.dispatched.length = s.passed
  | .dispatch dequeue cs ctrl =>
      dequeue = s.passed % s.trbCount ∧ cs = cycleOf s.trbCount s.passed ∧
        s.dispatched.length = s.passed ∧ s.passed < s.produced.length ∧
          ctrl = (s.cells dequeue).control
  | .advance dequeue cs =>
      dequeue = s.passed % s.trbCount ∧ cs = cycleOf s.trbCount s.passed ∧
        s.dispatched.length = s.passed + 1

/-- The producer is less than a lap ahead; the last lap of events is in the cells, and what
was never written is zero. -/
structure Inv (s : XhciEvents) : Prop where
  trbCount : 0 < s.trbCount ∧ s.trbCount < 0x10000
  enqueue : s.enqueue = s.produced.length % s.trbCount
  pcs : s.pcs = cycleOf s.trbCount s.produced.length
  cycle : ∀ k (hk : k < s.produced.length),
    s.produced[k].control &&& trbC = cycleOf s.trbCount k
  cells : ∀ k (hk : k < s.produced.length), s.produced.length ≤ k + s.trbCount →
    s.cells (k % s.trbCount) = s.produced[k]
  blank : ∀ i, s.produced.length ≤ i → i < s.trbCount → s.cells i = ⟨0, 0, 0⟩
  room : s.produced.length ≤ s.passed + s.trbCount
  dequeue : s.dequeue = s.passed % s.trbCount
  cs : s.cs = cycleOf s.trbCount s.passed
  order : s.dispatched <+: s.produced
  pc : s.PcOk s.pc

variable {s t : XhciEvents}

theorem Inv.of_init (h : XhciEventsInit s) : s.Inv where
  trbCount := h.trbCount
  enqueue := by rw [h.enqueue, h.produced, List.length_nil, Nat.zero_mod]
  pcs := by rw [h.pcs, h.produced, List.length_nil, cycleOf, Nat.zero_div]
  cycle k hk := by simp [h.produced] at hk
  cells k hk := by simp [h.produced] at hk
  blank i _ hi := h.cells i hi
  room := by simp [h.produced]
  dequeue := by rw [h.dequeue, h.passed, Nat.zero_mod]
  cs := by rw [h.cs, h.passed, cycleOf, Nat.zero_div]
  order := by rw [h.dispatched]; exact List.nil_prefix
  pc := by
    rw [h.pc]
    exact ⟨h.dispatched, h.passed⟩

theorem cycleOf_lt (n k : Nat) : cycleOf n k < 2 := Nat.mod_lt _ Nat.two_pos

theorem Inv.passed_le (h : s.Inv) (hlen : s.dispatched.length = s.passed) :
    s.passed ≤ s.produced.length :=
  hlen ▸ h.order.length_le

/-- The entry the driver looks at: a new event, or an old bit. -/
theorem Inv.entry (h : s.Inv) (hlen : s.dispatched.length = s.passed) :
    (s.cells (s.passed % s.trbCount)).control &&& trbC = cycleOf s.trbCount s.passed ↔
      s.passed < s.produced.length := by
  have hpos := h.trbCount.1
  have hroom := h.room
  constructor
  · intro hbit
    by_contra hnone
    have heq : s.passed = s.produced.length := by
      have hle := h.passed_le hlen
      omega
    rcases Nat.lt_or_ge s.passed s.trbCount with hfirst | hlater
    · -- In the first lap the cell is still zero.
      rw [Nat.mod_eq_of_lt hfirst, h.blank _ (by omega) hfirst, cycleOf,
        Nat.div_eq_of_lt hfirst] at hbit
      exact absurd hbit (by decide)
    · -- Later it holds the event of the lap before.
      obtain ⟨hdiv, hmod⟩ := sub_lap hpos hlater
      have hk : s.passed - s.trbCount < s.produced.length := by omega
      rw [← hmod, h.cells _ hk (by omega), h.cycle _ hk, cycleOf, cycleOf] at hbit
      omega
  · intro hlt
    rw [h.cells _ hlt hroom, h.cycle _ hlt]

theorem Inv.post (h : s.Inv) {trb : Trb} (hbit : trb.control &&& trbC = s.pcs)
    (hspace : s.produced.length < s.passed + s.trbCount) : (s.post trb).Inv := by
  have hpos := h.trbCount.1
  obtain ⟨hdiv, hmod⟩ := succ_lap (p := s.produced.length) hpos
  have hlen : (s.post trb).produced.length = s.produced.length + 1 := by
    simp [XhciEvents.post]
  have hcount : (s.post trb).trbCount = s.trbCount := rfl
  have hget (k : Nat) (hk : k < (s.post trb).produced.length) :
      (s.post trb).produced[k] =
        if hold : k < s.produced.length then s.produced[k] else trb := by
    simp only [XhciEvents.post]
    split
    · next hold => exact List.getElem_append_left hold
    · next hnew =>
        rw [List.getElem_append_right (by omega)]
        simp
  refine ⟨h.trbCount, ?_, ?_, fun k hk => ?_, fun k hk hlap => ?_, fun i hle hi => ?_, ?_,
    h.dequeue, h.cs, ?_, ?_⟩
  · rw [hlen, hcount]
    show (if s.enqueue + 1 = s.trbCount then 0 else s.enqueue + 1) = _
    rw [hmod, h.enqueue]
  · rw [hlen, hcount]
    show (if s.enqueue + 1 = s.trbCount then 1 - s.pcs else s.pcs) = _
    rw [h.enqueue, h.pcs, cycleOf, cycleOf, hdiv]
    split <;> omega
  · rw [hget k hk]
    split
    · next hold => exact h.cycle k hold
    · next hnew =>
        rw [hbit, h.pcs, hcount]
        congr 1
        omega
  · rw [hget k hk]
    show Function.update s.cells s.enqueue trb (k % s.trbCount) = _
    rw [hlen] at hk hlap
    rw [hcount] at hlap
    split
    · next hold =>
        have hne := mod_ne_of_lt (n := s.trbCount) hold (by omega)
        rw [← h.enqueue] at hne
        rw [Function.update_of_ne hne]
        exact h.cells k hold (by omega)
    · next hnew =>
        obtain rfl : k = s.produced.length := by omega
        rw [← h.enqueue]
        exact Function.update_self ..
  · show Function.update s.cells s.enqueue trb i = _
    rw [hlen] at hle
    rw [hcount] at hi
    have hne : i ≠ s.enqueue := by
      rw [h.enqueue, Nat.mod_eq_of_lt (by omega)]
      omega
    rw [Function.update_of_ne hne]
    exact h.blank i (by omega) hi
  · rw [hlen]
    exact hspace
  · exact h.order.trans (List.prefix_append ..)
  · have hpc := h.pc
    show (s.post trb).PcOk s.pc
    cases hat : s.pc with
    | scan | idle =>
        rw [hat] at hpc
        exact hpc
    | look dequeue cs =>
        rw [hat] at hpc
        exact hpc
    | dispatch dequeue cs ctrl =>
        rw [hat] at hpc
        obtain ⟨hdequeue, hcs, hdispatched, hlt, hctrl⟩ := hpc
        refine ⟨hdequeue, hcs, hdispatched, ?_, ?_⟩
        · rw [hlen]
          exact Nat.lt_succ_of_lt hlt
        · show ctrl = (Function.update s.cells s.enqueue trb dequeue).control
          have hne : dequeue ≠ s.enqueue := by
            rw [hdequeue, h.enqueue]
            exact mod_ne_of_lt hlt hspace
          rw [Function.update_of_ne hne, hctrl]
    | advance dequeue cs =>
        rw [hat] at hpc
        exact hpc

/-- What a dispatch changes: fifos and port registers. -/
theorem switch_eq (s : XhciEvents) (type : Nat) (trb : Trb) (portsc : Nat) :
    ∃ xferEvts cmdsEvts portEvts written, s.switch type trb portsc =
      { s with
        xferEvts := xferEvts, cmdsEvts := cmdsEvts, portEvts := portEvts, portsc := written } := by
  unfold switch notePort
  split_ifs <;> exact ⟨_, _, _, _, rfl⟩

/-- The entry the driver looked at is dispatched. -/
theorem Inv.dispatched (h : s.Inv) {dequeue cs ctrl : Nat}
    (hpc : s.pc = .dispatch dequeue cs ctrl) :
    s.dispatched ++ [s.cells dequeue] <+: s.produced ∧ ctrl = (s.cells dequeue).control := by
  have hok := h.pc
  rw [hpc] at hok
  obtain ⟨hdequeue, -, hlen, hlt, hctrl⟩ := hok
  refine ⟨?_, hctrl⟩
  rw [hdequeue, h.cells _ hlt h.room, List.prefix_iff_eq_take.mp h.order, hlen,
    List.take_append_getElem hlt]
  exact List.take_prefix _ _

theorem Inv.dispatch (h : s.Inv) {dequeue cs ctrl : Nat} (hpc : s.pc = .dispatch dequeue cs ctrl)
    (portsc : Nat) :
    Inv { s.switch (trbType ctrl) (s.cells dequeue) portsc with
      pc := .advance dequeue cs
      dispatched := s.dispatched ++ [s.cells dequeue]
      readings := s.readings ++ [portsc] } := by
  obtain ⟨xferEvts, cmdsEvts, portEvts, written, hswitch⟩ :=
    s.switch_eq (trbType ctrl) (s.cells dequeue) portsc
  obtain ⟨horder, -⟩ := h.dispatched hpc
  have hok := h.pc
  rw [hpc] at hok
  obtain ⟨hdequeue, hcs, hlen, -, -⟩ := hok
  rw [hswitch]
  refine ⟨h.trbCount, h.enqueue, h.pcs, h.cycle, h.cells, h.blank, h.room, h.dequeue, h.cs,
    horder, hdequeue, hcs, ?_⟩
  rw [List.length_append, List.length_singleton, hlen]

theorem Inv.advance (h : s.Inv) {dequeue cs : Nat} (hpc : s.pc = .advance dequeue cs) :
    (s.advance dequeue cs).Inv := by
  have hok := h.pc
  rw [hpc] at hok
  obtain ⟨rfl, rfl, hlen⟩ := hok
  obtain ⟨hpos, hcount⟩ := h.trbCount
  obtain ⟨hdiv, hmod⟩ := succ_lap (p := s.passed) hpos
  have hlt := Nat.mod_lt s.passed hpos
  have hnext : (s.passed % s.trbCount + 1) % 0x10000 = s.passed % s.trbCount + 1 :=
    Nat.mod_eq_of_lt (by omega)
  have hbound := cycleOf_lt s.trbCount s.passed
  have hdequeue : (s.advance (s.passed % s.trbCount) (cycleOf s.trbCount s.passed)).dequeue =
      (s.passed + 1) % s.trbCount := by
    simp only [XhciEvents.advance, hnext, hmod]
  have hflip (x : Nat) (hx : x = cycleOf s.trbCount s.passed) :
      (if s.passed % s.trbCount + 1 = s.trbCount then
        (if cycleOf s.trbCount s.passed = 0 then 1 else 0) else x) =
          cycleOf s.trbCount (s.passed + 1) := by
    rw [hx]
    unfold cycleOf
    rw [hdiv]
    by_cases hwrap : s.passed % s.trbCount + 1 = s.trbCount
    · rw [if_pos hwrap, if_pos hwrap]
      split <;> omega
    · rw [if_neg hwrap, if_neg hwrap]
  refine ⟨h.trbCount, h.enqueue, h.pcs, h.cycle, h.cells, h.blank, ?_, hdequeue, ?_, h.order, ?_⟩
  · have hroom := h.room
    show s.produced.length ≤ s.passed + 1 + s.trbCount
    omega
  · simp only [XhciEvents.advance, hnext]
    exact hflip _ h.cs
  · refine ⟨hdequeue, ?_, hlen⟩
    simp only [XhciEvents.advance, hnext]
    exact hflip _ rfl

/-- A look at the next entry. -/
theorem Inv.look (h : s.Inv) {dequeue cs : Nat} (hpc : s.pc = .look dequeue cs) :
    if s.passed < s.produced.length then
      eventStep s .look = some { s with pc := .dispatch dequeue cs (s.cells dequeue).control }
    else eventStep s .look = some { s with pc := .idle } := by
  have hok := h.pc
  rw [hpc] at hok
  obtain ⟨rfl, rfl, hlen⟩ := hok
  have hentry := h.entry hlen
  split
  · next hlt => simp only [eventStep, hpc, ne_eq, hentry.mpr hlt, not_true_eq_false, if_false]
  · next hnot => simp only [eventStep, hpc, ne_eq, hentry, hnot, not_false_eq_true, if_true]

theorem Inv.step (h : s.Inv) {c : EventCall} (hstep : eventStep s c = some t) : t.Inv := by
  have hok := h.pc
  cases c with
  | post trb =>
      simp only [eventStep] at hstep
      split at hstep
      · next hpost =>
          cases hstep
          exact h.post hpost.1 hpost.2
      · cases hstep
  | scan port portsc =>
      simp only [eventStep] at hstep
      split at hstep
      · next hpc =>
          cases hstep
          exact ⟨h.trbCount, h.enqueue, h.pcs, h.cycle, h.cells, h.blank, h.room, h.dequeue, h.cs,
            h.order, h.pc⟩
      · cases hstep
  | scanned =>
      simp only [eventStep] at hstep
      split at hstep
      · next hpc =>
          cases hstep
          rw [hpc] at hok
          refine ⟨h.trbCount, h.enqueue, h.pcs, h.cycle, h.cells, h.blank, h.room, h.dequeue, h.cs,
            h.order, ?_⟩
          show s.dispatched.length = s.passed
          rw [hok.1, hok.2, List.length_nil]
      · cases hstep
  | start =>
      simp only [eventStep] at hstep
      split at hstep
      · next hpc =>
          cases hstep
          rw [hpc] at hok
          have hlt := Nat.mod_lt s.passed h.trbCount.1
          have hcount := h.trbCount.2
          have hcs := cycleOf_lt s.trbCount s.passed
          refine ⟨h.trbCount, h.enqueue, h.pcs, h.cycle, h.cells, h.blank, h.room, h.dequeue,
            h.cs, h.order, ?_, ?_, hok⟩
          · rw [h.dequeue]
            exact Nat.mod_eq_of_lt (by omega)
          · rw [h.cs]
            exact Nat.mod_eq_of_lt (by omega)
      · cases hstep
  | look =>
      cases hpc : s.pc with
      | look dequeue cs =>
          have hlook := h.look hpc
          rw [hpc] at hok
          obtain ⟨hdequeue, hcs, hlen⟩ := hok
          split at hlook
          · next hlt =>
              obtain rfl := Option.some.inj (hlook.symm.trans hstep)
              exact ⟨h.trbCount, h.enqueue, h.pcs, h.cycle, h.cells, h.blank, h.room, h.dequeue,
                h.cs, h.order, hdequeue, hcs, hlen, hlt, rfl⟩
          · obtain rfl := Option.some.inj (hlook.symm.trans hstep)
            exact ⟨h.trbCount, h.enqueue, h.pcs, h.cycle, h.cells, h.blank, h.room, h.dequeue,
              h.cs, h.order, hlen⟩
      | _ => simp [eventStep, hpc] at hstep
  | dispatch portsc =>
      cases hpc : s.pc with
      | dispatch dequeue cs ctrl =>
          simp only [eventStep, hpc, Option.some.injEq] at hstep
          rw [← hstep]
          exact h.dispatch hpc portsc
      | _ => simp [eventStep, hpc] at hstep
  | advance =>
      cases hpc : s.pc with
      | advance dequeue cs =>
          simp only [eventStep, hpc, Option.some.injEq] at hstep
          rw [← hstep]
          exact h.advance hpc
      | _ => simp [eventStep, hpc] at hstep
  | readXfer =>
      obtain rfl := Option.some.inj hstep
      cases s.xferEvts.fifoRead <;>
        exact ⟨h.trbCount, h.enqueue, h.pcs, h.cycle, h.cells, h.blank, h.room, h.dequeue, h.cs,
          h.order, h.pc⟩
  | readCmds =>
      obtain rfl := Option.some.inj hstep
      cases s.cmdsEvts.fifoRead <;>
        exact ⟨h.trbCount, h.enqueue, h.pcs, h.cycle, h.cells, h.blank, h.room, h.dequeue, h.cs,
          h.order, h.pc⟩
  | readPort =>
      obtain rfl := Option.some.inj hstep
      cases s.portEvts.fifoRead <;>
        exact ⟨h.trbCount, h.enqueue, h.pcs, h.cycle, h.cells, h.blank, h.room, h.dequeue, h.cs,
          h.order, h.pc⟩

theorem inv_of_reachable {guard : XhciEvents → EventCall → Prop}
    (hreach : eventSystem.ReachableWhen guard s) : s.Inv :=
  hreach.invariant (P := Inv) (fun _ hinit => .of_init hinit) fun _ _ _ h _ hstep => h.step hstep

/-! ## Events and their order -/

/-- What has been dispatched are the first events, in order and once each; a call returns
only when none is left; and between two calls the stored index and cycle state are those of
the first event that has not been dispatched, written or still to be written. -/
structure Ordered (s : XhciEvents) : Prop where
  order : s.dispatched <+: s.produced
  returns : ∀ t, eventStep s .look = some t → t.pc = .idle → s.dispatched = s.produced
  next : s.pc = .idle → ∀ h : s.dispatched.length < s.produced.length,
    s.cells s.dequeue = s.produced[s.dispatched.length] ∧
      s.produced[s.dispatched.length].control &&& trbC = s.cs
  ahead : s.pc = .idle → s.dispatched = s.produced → s.dequeue = s.enqueue ∧ s.cs = s.pcs

theorem Inv.ordered (h : s.Inv) : s.Ordered := by
  have hok := h.pc
  refine ⟨h.order, fun t hstep hidle => ?_, fun hpc hlt => ?_, fun hpc heq => ?_⟩
  · cases hpc : s.pc with
    | look dequeue cs =>
        have hlook := h.look hpc
        rw [hpc] at hok
        obtain ⟨-, -, hlen⟩ := hok
        split at hlook
        · obtain rfl := Option.some.inj (hlook.symm.trans hstep)
          cases hidle
        · next hnot => exact h.order.eq_of_length (by have := h.passed_le hlen; omega)
    | _ => simp [eventStep, hpc] at hstep
  · rw [hpc] at hok
    have hlen : s.dispatched.length = s.passed := hok
    simp only [hlen] at hlt ⊢
    rw [h.dequeue, h.cells _ hlt h.room, h.cs, h.cycle _ hlt]
    exact ⟨rfl, rfl⟩
  · rw [hpc] at hok
    have hlen : s.dispatched.length = s.passed := hok
    rw [h.dequeue, h.cs, h.enqueue, h.pcs, ← hlen, heq]
    exact ⟨rfl, rfl⟩

end XhciEvents

/-- Every run of the driver and a controller that keeps the rules. -/
theorem eventSystem_ordered {s : XhciEvents} (hreach : eventSystem.Reachable s) : s.Ordered :=
  (XhciEvents.inv_of_reachable hreach).ordered

/-! ## The fifos -/

namespace EventFifo

variable {α : Type} {f f' : EventFifo α} {a : α} {taken read : List α}

/-- The items taken for the fifo are those that have been read and those it holds, in order and
once each. -/
def Delivered (f : EventFifo α) (taken read : List α) : Prop := taken = read ++ f.items

/-- The next `fifo_write` succeeds. -/
def HasRoom (f : EventFifo α) : Prop := f.items.length < xhciRingItems

theorem items_fifoWrite (hroom : f.HasRoom) : (f.fifoWrite a).items = f.items ++ [a] := by
  rw [fifoWrite, BoundedQueue.enqueue_of_room hroom]
  rfl

theorem fifoWrite_full (hfull : ¬ f.HasRoom) : f.fifoWrite a = f := by
  rw [fifoWrite, BoundedQueue.enqueue_of_full hfull]
  rfl

/-- An item is written if there is one. -/
theorem Delivered.offer (h : f.Delivered taken read) (item : Option α)
    (hroom : item.isSome → f.HasRoom) :
    EventFifo.Delivered (item.elim f f.fifoWrite) (taken ++ item.toList) read := by
  cases item with
  | none => simpa using h
  | some a =>
      show taken ++ [a] = read ++ (f.fifoWrite a).items
      rw [items_fifoWrite (hroom rfl), h, List.append_assoc]

theorem Delivered.not_offer (h : f.Delivered taken read) {item : Option α} (hitem : item.isSome)
    (hfull : ¬ f.HasRoom) :
    ¬ EventFifo.Delivered (item.elim f f.fifoWrite) (taken ++ item.toList) read := by
  obtain ⟨a, rfl⟩ := Option.isSome_iff_exists.mp hitem
  intro hdelivered
  change taken ++ [a] = read ++ (f.fifoWrite a).items at hdelivered
  rw [fifoWrite_full hfull, ← h] at hdelivered
  simp at hdelivered

theorem fifoRead_eq_some : f.fifoRead = some (a, f') ↔ f.items = a :: f'.items := by
  obtain ⟨items, hbounded⟩ := f
  obtain ⟨items', hbounded'⟩ := f'
  cases items with
  | nil => simp [fifoRead, BoundedQueue.dequeue]
  | cons b items => simp [fifoRead, BoundedQueue.dequeue]

theorem fifoRead_eq_none : f.fifoRead = none ↔ f.items = [] := by
  obtain ⟨items, hbounded⟩ := f
  cases items with
  | nil => simp [fifoRead, BoundedQueue.dequeue]
  | cons b items => simp [fifoRead, BoundedQueue.dequeue]

theorem Delivered.fifoRead (h : f.Delivered taken read) (hread : f.fifoRead = some (a, f')) :
    f'.Delivered taken (read ++ [a]) := by
  show taken = (read ++ [a]) ++ f'.items
  rw [h, fifoRead_eq_some.mp hread, List.append_assoc, List.singleton_append]

/-- The bytes of a fifo of the driver hold the events; `enc` are those of one event. -/
def StoredIn (f : EventFifo α) (itemSize : Nat) (enc : α → Nat → Byte) (fifo : Fifo) : Prop :=
  fifo.Holds itemSize xhciRingItems (f.items.map fun a => loadBytes itemSize (enc a))

variable {itemSize : Nat} {enc : α → Nat → Byte} {fifo : Fifo}

theorem StoredIn.fifoWrite (h : f.StoredIn itemSize enc fifo)
    (hfit : Fifo.OffsetsFit itemSize xhciRingItems) :
    (f.fifoWrite a).StoredIn itemSize enc (fifo.fifoWrite (some (enc a))).2 := by
  have hfree := h.free_eq_zero_iff
  rw [List.length_map] at hfree
  unfold StoredIn
  by_cases hroom : f.HasRoom
  · rw [Fifo.fifoWrite_of_room (hfree.not.mpr (not_not.mpr hroom)), items_fifoWrite hroom,
      List.map_append]
    exact Fifo.Holds.writeBody h hfit (by decide) (by rwa [List.length_map]) _
  · rw [Fifo.fifoWrite_of_full (hfree.mpr hroom), fifoWrite_full hroom]
    exact h

theorem StoredIn.fifoRead (h : f.StoredIn itemSize enc fifo)
    (hfit : Fifo.OffsetsFit itemSize xhciRingItems) (item : Nat → Byte) :
    EventFifo.StoredIn (f.fifoRead.elim f Prod.snd) itemSize enc
      (fifo.fifoRead (some item)).2.2 := by
  have hfree := h.free_eq_size_iff
  rw [List.map_eq_nil_iff] at hfree
  cases hread : f.fifoRead with
  | none =>
      rw [Fifo.fifoRead_of_empty (hfree.mpr (fifoRead_eq_none.mp hread))]
      exact h
  | some r =>
      obtain ⟨a, f'⟩ := r
      have hitems := fifoRead_eq_some.mp hread
      have hne : f.items ≠ [] := by simp [hitems]
      rw [Fifo.fifoRead_of_item (hfree.not.mpr hne)]
      unfold StoredIn at h
      rw [hitems, List.map_cons] at h
      exact (Fifo.Holds.readBody h hfit (by decide) item).2

end EventFifo

namespace XhciEvents

variable {s t : XhciEvents}

/-- The fifo of an event of this type has room. -/
structure Fits (s : XhciEvents) (type portsc : Nat) : Prop where
  xfer : type = erTransfer → s.xferEvts.HasRoom
  cmds : type = erCommandComplete → s.cmdsEvts.HasRoom
  port : type = erPortStatusChange → portsc &&& xhciPortscCsc ≠ 0 → s.portEvts.HasRoom

/-- No event is dispatched to a fifo that is full. -/
def RoomFor (s : XhciEvents) : EventCall → Prop
  | .dispatch portsc =>
      match s.pc with
      | .dispatch _ _ ctrl => s.Fits (trbType ctrl) portsc
      | _ => True
  | _ => True

/-- The event of a type, and nothing if it is of another. -/
def ofType (type : Nat) (trb : Trb) : Option Trb :=
  if trbType trb.control = type then some trb else none

/-- The connection an event tells of, with the value of `PORTSC` when it was dispatched. -/
def connectionOf (e : Trb × Nat) : Option PortConnectionEvent :=
  if trbType e.1.control = erPortStatusChange then connectionEvent (eventPort e.1) e.2 else none

/-- The transfer events, the command completions and the changes of connections that were
dispatched are in their fifos or have been read, in order and once each; those the loop over the
ports has stored come first. -/
structure AllDelivered (s : XhciEvents) : Prop where
  readings : s.readings.length = s.dispatched.length
  xfer : s.xferEvts.Delivered (s.dispatched.filterMap (ofType erTransfer)) s.xferRead
  cmds : s.cmdsEvts.Delivered (s.dispatched.filterMap (ofType erCommandComplete)) s.cmdsRead
  port : s.portEvts.Delivered
    (s.noted ++ (s.dispatched.zip s.readings).filterMap connectionOf) s.portRead

theorem AllDelivered.of_init (h : XhciEventsInit s) : s.AllDelivered := by
  refine ⟨?_, ?_, ?_, ?_⟩
  · rw [h.readings, h.dispatched]
    rfl
  · rw [h.xferEvts, h.dispatched, h.xferRead]
    rfl
  · rw [h.cmdsEvts, h.dispatched, h.cmdsRead]
    rfl
  · rw [h.portEvts, h.noted, h.dispatched, h.portRead]
    rfl

/-- What the switch writes into the fifos. -/
theorem switch_fifos (s : XhciEvents) (trb : Trb) (portsc : Nat) :
    (s.switch (trbType trb.control) trb portsc).xferEvts =
        (ofType erTransfer trb).elim s.xferEvts s.xferEvts.fifoWrite ∧
      (s.switch (trbType trb.control) trb portsc).cmdsEvts =
        (ofType erCommandComplete trb).elim s.cmdsEvts s.cmdsEvts.fifoWrite ∧
      (s.switch (trbType trb.control) trb portsc).portEvts =
        (connectionOf (trb, portsc)).elim s.portEvts s.portEvts.fifoWrite := by
  unfold switch ofType connectionOf
  dsimp only
  by_cases hxfer : trbType trb.control = erTransfer
  · rw [hxfer]
    exact ⟨rfl, rfl, rfl⟩
  · by_cases hcmds : trbType trb.control = erCommandComplete
    · rw [hcmds]
      exact ⟨rfl, rfl, rfl⟩
    · by_cases hport : trbType trb.control = erPortStatusChange
      · rw [hport]
        exact ⟨rfl, rfl, rfl⟩
      · simp only [if_neg hxfer, if_neg hcmds, if_neg hport, Option.elim_none, and_self]

theorem isSome_connectionOf {trb : Trb} {portsc : Nat} :
    (connectionOf (trb, portsc)).isSome ↔
      trbType trb.control = erPortStatusChange ∧ portsc &&& xhciPortscCsc ≠ 0 := by
  unfold connectionOf connectionEvent
  split_ifs <;> simp_all

theorem isSome_ofType {type : Nat} {trb : Trb} :
    (ofType type trb).isSome ↔ trbType trb.control = type := by
  unfold ofType
  split_ifs <;> simp_all

/-- What a dispatch adds to the events taken. -/
theorem taken_dispatch (ds : List Trb) (rs : List Nat) (noted : List PortConnectionEvent)
    (hlen : rs.length = ds.length) (trb : Trb) (portsc : Nat) :
    noted ++ ((ds ++ [trb]).zip (rs ++ [portsc])).filterMap connectionOf =
      (noted ++ (ds.zip rs).filterMap connectionOf) ++ (connectionOf (trb, portsc)).toList := by
  rw [List.zip_append hlen.symm, List.filterMap_append, List.append_assoc]
  cases hconn : connectionOf (trb, portsc) <;> simp [hconn]

theorem filterMap_ofType_append (type : Nat) (ds : List Trb) (trb : Trb) :
    (ds ++ [trb]).filterMap (ofType type) =
      ds.filterMap (ofType type) ++ (ofType type trb).toList := by
  rw [List.filterMap_append]
  cases htype : ofType type trb <;> simp [htype]

/-- The state after a dispatch. -/
def dispatchEvent (s : XhciEvents) (dequeue cs ctrl portsc : Nat) : XhciEvents :=
  { s.switch (trbType ctrl) (s.cells dequeue) portsc with
    pc := .advance dequeue cs
    dispatched := s.dispatched ++ [s.cells dequeue]
    readings := s.readings ++ [portsc] }

/-- All that has been dispatched is delivered again if and only if the event fits. -/
theorem AllDelivered.dispatch (h : s.AllDelivered) (hinv : s.Inv) {dequeue cs ctrl : Nat}
    (hpc : s.pc = .dispatch dequeue cs ctrl) (portsc : Nat) :
    (s.dispatchEvent dequeue cs ctrl portsc).AllDelivered ↔ s.Fits (trbType ctrl) portsc := by
  obtain ⟨-, rfl⟩ := hinv.dispatched hpc
  obtain ⟨xferEvts, cmdsEvts, portEvts, written, hswitch⟩ :=
    s.switch_eq (trbType (s.cells dequeue).control) (s.cells dequeue) portsc
  obtain ⟨hxfer, hcmds, hport⟩ := s.switch_fifos (s.cells dequeue) portsc
  rw [hswitch] at hxfer hcmds hport
  dsimp only at hxfer hcmds hport
  unfold dispatchEvent
  rw [hswitch, hxfer, hcmds, hport]
  constructor
  · intro hall
    have hxfer := hall.xfer
    have hcmds := hall.cmds
    have hport := hall.port
    dsimp only at hxfer hcmds hport
    rw [filterMap_ofType_append] at hxfer hcmds
    rw [taken_dispatch _ _ _ h.readings] at hport
    refine ⟨fun htype => ?_, fun htype => ?_, fun htype hcsc => ?_⟩
    · by_contra hfull
      exact h.xfer.not_offer (isSome_ofType.mpr htype) hfull hxfer
    · by_contra hfull
      exact h.cmds.not_offer (isSome_ofType.mpr htype) hfull hcmds
    · by_contra hfull
      exact h.port.not_offer (isSome_connectionOf.mpr ⟨htype, hcsc⟩) hfull hport
  · intro hfits
    refine ⟨?_, ?_, ?_, ?_⟩
    · dsimp only
      rw [List.length_append, List.length_append, h.readings]
      rfl
    · dsimp only
      rw [filterMap_ofType_append]
      exact h.xfer.offer _ fun hsome => hfits.xfer (isSome_ofType.mp hsome)
    · dsimp only
      rw [filterMap_ofType_append]
      exact h.cmds.offer _ fun hsome => hfits.cmds (isSome_ofType.mp hsome)
    · dsimp only
      rw [taken_dispatch _ _ _ h.readings]
      exact h.port.offer _ fun hsome =>
        hfits.port (isSome_connectionOf.mp hsome).1 (isSome_connectionOf.mp hsome).2

/-- Before the first call the loop over the ports stores what fits. -/
theorem AllDelivered.scan (h : s.AllDelivered) (hinv : s.Inv) (hpc : s.pc = .scan)
    (port portsc : Nat) :
    AllDelivered { s.notePort port portsc with
      noted := s.noted ++ if s.portEvts.items.length < xhciRingItems
        then (connectionEvent port portsc).toList else [] } := by
  have hok := hinv.pc
  rw [hpc] at hok
  refine ⟨h.readings, h.xfer, h.cmds, ?_⟩
  have hport := h.port
  rw [hok.1, List.zip_nil_left, List.filterMap_nil, List.append_nil] at hport
  unfold notePort
  dsimp only
  rw [hok.1, List.zip_nil_left, List.filterMap_nil, List.append_nil]
  split
  · next hroom => exact hport.offer _ fun _ => hroom
  · next hfull =>
      rw [List.append_nil]
      cases connectionEvent port portsc with
      | none => exact hport
      | some pcEvt =>
          show EventFifo.Delivered (s.portEvts.fifoWrite pcEvt) _ _
          rw [EventFifo.fifoWrite_full hfull]
          exact hport

theorem AllDelivered.step (h : s.AllDelivered) (hinv : s.Inv) {c : EventCall}
    (hroom : s.RoomFor c) (hstep : eventStep s c = some t) : t.AllDelivered := by
  cases c with
  | post trb =>
      simp only [eventStep] at hstep
      split at hstep
      · cases hstep
        exact ⟨h.readings, h.xfer, h.cmds, h.port⟩
      · cases hstep
  | scan port portsc =>
      simp only [eventStep] at hstep
      split at hstep
      · next hpc =>
          cases hstep
          exact h.scan hinv hpc port portsc
      · cases hstep
  | scanned | start | advance =>
      simp only [eventStep] at hstep
      split at hstep
      · cases hstep
        exact ⟨h.readings, h.xfer, h.cmds, h.port⟩
      · cases hstep
  | look =>
      simp only [eventStep] at hstep
      split at hstep
      · split at hstep
        · cases hstep
          exact ⟨h.readings, h.xfer, h.cmds, h.port⟩
        · cases hstep
          exact ⟨h.readings, h.xfer, h.cmds, h.port⟩
      · cases hstep
  | dispatch portsc =>
      cases hpc : s.pc with
      | dispatch dequeue cs ctrl =>
          simp only [eventStep, hpc, Option.some.injEq] at hstep
          rw [RoomFor, hpc] at hroom
          rw [← hstep]
          exact (h.dispatch hinv hpc portsc).mpr hroom
      | _ => simp [eventStep, hpc] at hstep
  | readXfer =>
      cases hstep
      cases hread : s.xferEvts.fifoRead with
      | none => exact h
      | some r => exact ⟨h.readings, h.xfer.fifoRead hread, h.cmds, h.port⟩
  | readCmds =>
      cases hstep
      cases hread : s.cmdsEvts.fifoRead with
      | none => exact h
      | some r => exact ⟨h.readings, h.xfer, h.cmds.fifoRead hread, h.port⟩
  | readPort =>
      cases hstep
      cases hread : s.portEvts.fifoRead with
      | none => exact h
      | some r => exact ⟨h.readings, h.xfer, h.cmds, h.port.fifoRead hread⟩

/-- What an event that does not fit does. -/
theorem AllDelivered.not_dispatch (h : s.AllDelivered) (hinv : s.Inv) {portsc : Nat}
    (hstep : eventStep s (.dispatch portsc) = some t) (hroom : ¬ s.RoomFor (.dispatch portsc)) :
    ¬ t.AllDelivered := by
  cases hpc : s.pc with
  | dispatch dequeue cs ctrl =>
      simp only [eventStep, hpc, Option.some.injEq] at hstep
      rw [RoomFor, hpc] at hroom
      rw [← hstep]
      exact mt (h.dispatch hinv hpc portsc).mp hroom
  | _ => simp [eventStep, hpc] at hstep

theorem allDelivered_of_reachable (hreach : eventSystem.ReachableWhen RoomFor s) :
    s.AllDelivered :=
  (hreach.invariant (P := fun s => s.Inv ∧ s.AllDelivered)
    (fun _ hinit => ⟨.of_init hinit, .of_init hinit⟩)
    fun _ _ _ h hroom hstep => ⟨h.1.step hstep, h.2.step h.1 hroom hstep⟩).2

end XhciEvents

/-- As long as every event finds room in its fifo, all are delivered; the first that does
not is lost. -/
theorem eventSystem_delivered {s : XhciEvents}
    (hreach : eventSystem.ReachableWhen XhciEvents.RoomFor s) :
    s.AllDelivered ∧ ∀ portsc t, eventStep s (.dispatch portsc) = some t →
      ¬ s.RoomFor (.dispatch portsc) → ¬ t.AllDelivered := by
  have hall := XhciEvents.allDelivered_of_reachable hreach
  exact ⟨hall, fun _ _ hstep hroom =>
    hall.not_dispatch (XhciEvents.inv_of_reachable hreach) hstep hroom⟩

/-! ## A burst of events -/

namespace XhciEvents

/-- The ring of `configure_xhci`, at an address of its own. -/
def eventRing : XhciEvents where
  cells := fun _ => ⟨0, 0, 0⟩
  trbs := 0x1000000
  trbCount := xhciRingItems
  dequeue := 0
  cs := 1
  erdp := (0x1000000, 0)
  portsc := []
  xferEvts := .empty Trb xhciRingItems
  cmdsEvts := .empty Trb xhciRingItems
  portEvts := .empty PortConnectionEvent xhciRingItems
  pc := .scan
  enqueue := 0
  pcs := 1
  produced := []
  dispatched := []
  readings := []
  passed := 0
  xferRead := []
  cmdsRead := []
  portRead := []
  noted := []

theorem eventRing_init : XhciEventsInit eventRing :=
  ⟨fun _ _ => rfl, ⟨by decide, by decide⟩, rfl, rfl, rfl, rfl, rfl, rfl, rfl, rfl, rfl, rfl, rfl,
    rfl, rfl, rfl, rfl, rfl⟩

variable {s : XhciEvents}

/-- A transfer event with the producer's cycle bit. -/
theorem exists_transferEvent (hpcs : s.pcs < 2) : ∃ trb : Trb,
    trb.control &&& trbC = s.pcs ∧ trbType trb.control = erTransfer := by
  have hbit : s.pcs = 0 ∨ s.pcs = 1 := by omega
  rcases hbit with hbit | hbit
  · exact ⟨⟨0, 0, erTransfer <<< 10⟩, by rw [hbit]; decide, by decide⟩
  · exact ⟨⟨0, 0, (erTransfer <<< 10) ||| 1⟩, by rw [hbit]; decide, by decide⟩

/-- `k` transfer events have been moved to their fifo, none has been read, and the driver is
about to look for the next one. -/
structure Moved (s : XhciEvents) (k : Nat) : Prop where
  reach : eventSystem.ReachableWhen RoomFor s
  pc : ∃ dequeue cs, s.pc = .look dequeue cs
  dispatched : s.dispatched = s.produced
  produced : s.produced.length = k
  items : s.xferEvts.items.length = k

/-- One more is written, and the driver sees it. -/
theorem Moved.look {k : Nat} (h : s.Moved k) : ∃ t dequeue cs ctrl,
    eventSystem.ReachableWhen RoomFor t ∧ t.pc = .dispatch dequeue cs ctrl ∧
      trbType ctrl = erTransfer ∧ t.xferEvts = s.xferEvts ∧ t.dispatched = s.produced ∧
        t.produced.length = k + 1 := by
  have hinv := inv_of_reachable h.reach
  have hpos := hinv.trbCount.1
  obtain ⟨dequeue, cs, hpc⟩ := h.pc
  obtain ⟨trb, hbit, htype⟩ := exists_transferEvent (s := s) (hinv.pcs ▸ cycleOf_lt _ _)
  have hpassed : s.produced.length = s.passed := by
    have hok := hinv.pc
    rw [hpc] at hok
    rw [← hok.2.2, h.dispatched]
  have hspace : s.produced.length < s.passed + s.trbCount := by omega
  have hpost : eventStep s (.post trb) = some (s.post trb) := if_pos ⟨hbit, hspace⟩
  have hposted : eventSystem.ReachableWhen RoomFor (s.post trb) :=
    h.reach.step (a := EventCall.post trb) trivial hpost
  have hlook := (inv_of_reachable hposted).look (show (s.post trb).pc = _ from hpc)
  rw [if_pos (by simp [XhciEvents.post, hpassed])] at hlook
  have hlooked := hposted.step (a := EventCall.look) trivial hlook
  obtain ⟨horder, -⟩ := (inv_of_reachable hlooked).dispatched rfl
  refine ⟨_, _, _, _, hlooked, rfl, ?_, rfl, h.dispatched, ?_⟩
  · -- What it sees is what was written.
    change s.dispatched ++ [(s.post trb).cells dequeue] <+: s.produced ++ [trb] at horder
    rw [h.dispatched, List.prefix_append_right_inj, List.singleton_prefix_cons_iff] at horder
    rw [horder, htype]
  · simp [XhciEvents.post, h.produced]

theorem Moved.succ {k : Nat} (h : s.Moved k) (hk : k < xhciRingItems) : ∃ t, Moved t (k + 1) := by
  obtain ⟨t, dequeue, cs, ctrl, hreach, hpc, htype, hxfer, hdispatched, hproduced⟩ := h.look
  have hroom : t.xferEvts.HasRoom := by
    rw [hxfer]
    rw [EventFifo.HasRoom, h.items]
    exact hk
  have hfits : t.Fits (trbType ctrl) 0 := by
    rw [htype]
    exact ⟨fun _ => hroom, fun h => absurd h (by decide), fun h => absurd h (by decide)⟩
  have hdispatch : eventStep t (.dispatch 0) = some (t.dispatchEvent dequeue cs ctrl 0) := by
    rw [eventStep, hpc]
    rfl
  have hmoved := hreach.step (a := EventCall.dispatch 0)
    (by rw [RoomFor, hpc]; exact hfits) hdispatch
  have hadvanced := hmoved.step (a := EventCall.advance) trivial rfl
  obtain ⟨horder, rfl⟩ := (inv_of_reachable hreach).dispatched hpc
  obtain ⟨xferEvts, cmdsEvts, portEvts, written, hswitch⟩ :=
    t.switch_eq (trbType (t.cells dequeue).control) (t.cells dequeue) 0
  refine ⟨_, hadvanced, ⟨_, _, rfl⟩, ?_, ?_, ?_⟩
  · show t.dispatched ++ [t.cells dequeue] =
      (t.switch (trbType (t.cells dequeue).control) (t.cells dequeue) 0).produced
    rw [hswitch]
    apply horder.eq_of_length
    rw [List.length_append, List.length_singleton, hdispatched, h.produced, hproduced]
  · show (t.switch (trbType (t.cells dequeue).control) (t.cells dequeue) 0).produced.length = _
    rw [hswitch]
    exact hproduced
  · show (t.switch (trbType (t.cells dequeue).control) (t.cells dequeue)
      0).xferEvts.items.length = _
    rw [(t.switch_fifos _ _).1, ofType, if_pos htype, Option.elim_some,
      EventFifo.items_fifoWrite hroom, List.length_append, List.length_singleton, hxfer, h.items]

theorem exists_moved {k : Nat} (hk : k ≤ xhciRingItems) : ∃ s, Moved s k := by
  induction k with
  | zero =>
      have hinit : eventSystem.ReachableWhen RoomFor eventRing := .init eventRing_init
      -- A device is in the first port already.
      have hscan := hinit.step (a := EventCall.scan 0 (xhciPortscCsc ||| xhciPortscCcs)) trivial
        (Option.some_get (by rfl)).symm
      have hscanned := hscan.step (a := EventCall.scanned) trivial (Option.some_get (by rfl)).symm
      have hstart := hscanned.step (a := EventCall.start) trivial (Option.some_get (by rfl)).symm
      exact ⟨_, hstart, ⟨0, 1, rfl⟩, rfl, rfl, rfl⟩
  | succ k ih =>
      obtain ⟨s, hs⟩ := ih (by omega)
      exact hs.succ (by omega)

/-- After sixteen events the driver has been around the ring. -/
theorem exists_ordered_lap : ∃ s : XhciEvents,
    s.produced.length = 16 ∧ s.dispatched.length = 16 ∧ s.Ordered := by
  obtain ⟨s, hs⟩ := exists_moved (Nat.le_refl 16)
  refine ⟨s, hs.produced, ?_, eventSystem_ordered (hs.reach.mono fun _ _ _ => trivial)⟩
  rw [hs.dispatched, hs.produced]

/-- The seventeenth event finds the fifo full. -/
theorem Moved.full (h : s.Moved xhciRingItems) : ∃ t u,
    eventSystem.ReachableWhen RoomFor t ∧ t.dispatched.length = 16 ∧
      eventStep t (.dispatch 0) = some u ∧ ¬ t.RoomFor (.dispatch 0) := by
  obtain ⟨t, dequeue, cs, ctrl, hreach, hpc, htype, hxfer, hdispatched, -⟩ := h.look
  have hdispatch : eventStep t (.dispatch 0) = some (t.dispatchEvent dequeue cs ctrl 0) := by
    rw [eventStep, hpc]
    rfl
  refine ⟨t, _, hreach, ?_, hdispatch, ?_⟩
  · rw [hdispatched, h.produced]
  · rw [RoomFor, hpc]
    intro hfits
    have hroom : t.xferEvts.HasRoom := XhciEvents.Fits.xfer hfits htype
    rw [hxfer, EventFifo.HasRoom, h.items] at hroom
    exact Nat.lt_irrefl _ hroom

theorem exists_lost_event : ∃ s u : XhciEvents, s.dispatched.length = 16 ∧ s.AllDelivered ∧
    eventStep s (.dispatch 0) = some u ∧ ¬ u.AllDelivered := by
  obtain ⟨s, hs⟩ := exists_moved (Nat.le_refl xhciRingItems)
  obtain ⟨t, u, hreach, hdispatched, hstep, hroom⟩ := hs.full
  obtain ⟨hall, hlost⟩ := eventSystem_delivered hreach
  exact ⟨t, u, hdispatched, hall, hstep, hlost 0 u hstep hroom⟩

/-- Not every run delivers all events. -/
theorem not_delivered : ¬ ∀ s : XhciEvents, eventSystem.Reachable s → s.AllDelivered := by
  intro hdelivered
  obtain ⟨s, hs⟩ := exists_moved (Nat.le_refl xhciRingItems)
  obtain ⟨t, u, hreach, -, hstep, hroom⟩ := hs.full
  have hreach' : eventSystem.Reachable t := hreach.mono fun _ _ _ => trivial
  have hlost := (hdelivered t hreach').not_dispatch (inv_of_reachable hreach) hstep hroom
  exact hlost (hdelivered u (hreach'.step trivial hstep))

end XhciEvents

end ClayFigure
