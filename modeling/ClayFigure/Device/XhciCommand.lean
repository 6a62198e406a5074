/-
# Commands and their completions

`xhci_cmd_submit` puts a command on the command ring and waits for an event, with a limit
of 200 ticks; `xhci_process_events`, in another task, moves completion events from the
event ring into a FIFO; the controller completes commands when it likes. The FIFO says
nothing about whose completion it holds. The results say which runs give every call its own
completion, and that any other submission can be answered with a completion of an earlier
command.
-/

import ClayFigure.Device.XhciRing

namespace ClayFigure

open ClayFigure.Math

/-! ## The code -/

/-- `XHCI_RING_ITEMS`. -/
abbrev xhciRingItems : Nat := 16

/-- `ER_COMMAND_COMPLETE`. -/
abbrev erCommandComplete : Nat := 33

/-- `CC_INVALID`. -/
abbrev ccInvalid : Nat := 0

/-- The completion code in the status word of an event. -/
def completionCode (trb : Trb) : Nat := (trb.status >>> 24) &&& 0xff

/-- A block on the event ring. `command` records the command it completes; the driver does
not see it. -/
structure XhciEvent where
  trb : Trb
  command : Option Nat
  deriving DecidableEq

/-- Where the task that issues commands is. `check` and `sleep` are the two halves of the
loop of `xhci_event_wait`, with the caller's block, as `xhci_trb_queue` leaves it, and the
`timeout` left. -/
inductive SubmitPc
  | idle
  | check (command : Nat) (trb : Trb) (timeout : Nat)
  | sleep (command : Nat) (trb : Trb) (timeout : Nat)

/-- The command of the call in progress. -/
def SubmitPc.command : SubmitPc → Option Nat
  | .idle => none
  | .check command _ _ => some command
  | .sleep command _ _ => some command

/-- What a call of `xhci_cmd_submit` returned: the code and the caller's block; `event`
records what was read from the FIFO. -/
structure SubmitReturn where
  command : Nat
  code : Nat
  trb : Trb
  event : Option XhciEvent

/-- The driver and the controller. Commands are numbered as they are submitted; `outstanding`
are the ones the controller has still to complete, `evts` the event ring. -/
structure XhciCommands where
  pc : SubmitPc
  next : Nat
  outstanding : List Nat
  evts : List XhciEvent
  cmdsEvts : List XhciEvent
  returned : List SubmitReturn

inductive XhciCall
  | submit (trb : Trb)
  | poll
  | wake
  | complete (command : Nat) (trb : Trb)
  | post (trb : Trb)
  | process

namespace XhciCommands

/-- `xhci_trb_queue` and the doorbell: the controller has the command. -/
def submit (s : XhciCommands) (trb : Trb) : XhciCommands :=
  { s with
    pc := .check s.next trb 200
    next := s.next + 1
    outstanding := s.outstanding ++ [s.next] }

/-- The call returns. -/
def ret (s : XhciCommands) (r : SubmitReturn) : XhciCommands :=
  { s with pc := .idle, returned := s.returned ++ [r] }

/-- The loop of `xhci_event_wait` looks at the FIFO: it reads an event or goes to sleep. -/
def poll (s : XhciCommands) (command : Nat) (trb : Trb) (timeout : Nat) : XhciCommands :=
  match s.cmdsEvts with
  | [] => { s with pc := .sleep command trb timeout }
  | event :: rest =>
      { s with cmdsEvts := rest }.ret
        ⟨command, completionCode event.trb, event.trb, some event⟩

/-- The task wakes up after `task_msleep(1)`. -/
def wake (s : XhciCommands) (command : Nat) (trb : Trb) (timeout : Nat) : XhciCommands :=
  if timeout - 1 = 0 then s.ret ⟨command, ccInvalid, trb, none⟩
  else { s with pc := .check command trb (timeout - 1) }

/-- `fifo_write(&xhci->cmds_evts, trb)`: nothing is written when the FIFO is full. -/
def fifoWrite (s : XhciCommands) (event : XhciEvent) : XhciCommands :=
  if s.cmdsEvts.length = xhciRingItems then s
  else { s with cmdsEvts := s.cmdsEvts ++ [event] }

/-- One turn of the loop of `xhci_process_events`; events of other types go elsewhere. -/
def processEvent (s : XhciCommands) (event : XhciEvent) : XhciCommands :=
  if trbType event.trb.control = erCommandComplete then s.fifoWrite event else s

end XhciCommands

/-- The steps of the two tasks and of the controller. -/
inductive XhciStep : XhciCommands → XhciCall → XhciCommands → Prop
  | submit {s : XhciCommands} {trb : Trb} (hpc : s.pc = .idle) :
      XhciStep s (.submit trb) (s.submit trb)
  | poll {s : XhciCommands} {command : Nat} {trb : Trb} {timeout : Nat}
      (hpc : s.pc = .check command trb timeout) : XhciStep s .poll (s.poll command trb timeout)
  | wake {s : XhciCommands} {command : Nat} {trb : Trb} {timeout : Nat}
      (hpc : s.pc = .sleep command trb timeout) : XhciStep s .wake (s.wake command trb timeout)
  | complete {s : XhciCommands} {pre post : List Nat} {command : Nat} {trb : Trb}
      (houtstanding : s.outstanding = pre ++ command :: post)
      (htype : trbType trb.control = erCommandComplete) :
      XhciStep s (.complete command trb)
        { s with outstanding := pre ++ post, evts := s.evts ++ [⟨trb, some command⟩] }
  | post {s : XhciCommands} {trb : Trb} (htype : trbType trb.control ≠ erCommandComplete) :
      XhciStep s (.post trb) { s with evts := s.evts ++ [⟨trb, none⟩] }
  | process {s : XhciCommands} {event : XhciEvent} {rest : List XhciEvent}
      (hevts : s.evts = event :: rest) :
      XhciStep s .process ({ s with evts := rest }.processEvent event)

/-- No command has been submitted. -/
structure XhciCommandsInit (s : XhciCommands) : Prop where
  pc : s.pc = .idle
  next : s.next = 0
  outstanding : s.outstanding = []
  evts : s.evts = []
  cmdsEvts : s.cmdsEvts = []
  returned : s.returned = []

def xhciSystem : System XhciCommands XhciCall := ⟨XhciCommandsInit, XhciStep⟩

/-- A call that returns a code returns the completion of its own command. -/
def SubmitReturn.Own (r : SubmitReturn) : Prop :=
  r.code ≠ ccInvalid → ∃ event, r.event = some event ∧ event.command = some r.command ∧
    r.trb = event.trb ∧ r.code = completionCode event.trb

def XhciCommands.AllOwn (s : XhciCommands) : Prop := ∀ r ∈ s.returned, r.Own

/-- No completion of an earlier command is still to come or to be read. -/
structure XhciCommands.Quiet (s : XhciCommands) : Prop where
  outstanding : s.outstanding = []
  evts : ∀ event ∈ s.evts, event.command = none
  cmdsEvts : s.cmdsEvts = []

/-- Commands are submitted when no earlier one is left. -/
def XhciCommands.SubmitsQuiet (s : XhciCommands) : XhciCall → Prop
  | .submit _ => s.Quiet
  | _ => True

namespace XhciCommands

variable {s t : XhciCommands}

/-! ## The invariant -/

/-- Whatever is under way belongs to the last command, which is the one of the call in
progress. -/
structure LastOnly (s : XhciCommands) : Prop where
  pc : ∀ command ∈ s.pc.command, command + 1 = s.next
  outstanding : ∀ command ∈ s.outstanding, command + 1 = s.next
  evts : ∀ event ∈ s.evts, (event.command = none ↔ trbType event.trb.control ≠ erCommandComplete) ∧
    ∀ command ∈ event.command, command + 1 = s.next
  cmdsEvts : ∀ event ∈ s.cmdsEvts, ∃ command, event.command = some command ∧ command + 1 = s.next
  returned : s.AllOwn

theorem LastOnly.init (h : XhciCommandsInit s) : s.LastOnly := by
  refine ⟨?_, ?_, ?_, ?_, ?_⟩
  · simp [h.pc, SubmitPc.command]
  · simp [h.outstanding]
  · simp [h.evts]
  · simp [h.cmdsEvts]
  · simp [AllOwn, h.returned]

theorem LastOnly.submit (h : s.LastOnly) (hquiet : s.Quiet) (trb : Trb) :
    (s.submit trb).LastOnly := by
  refine ⟨?_, ?_, fun event hevent => ⟨(h.evts event hevent).1, ?_⟩, ?_, h.returned⟩
  · rintro command ⟨rfl⟩
    rfl
  · intro command hcommand
    simp only [XhciCommands.submit, hquiet.outstanding, List.nil_append,
      List.mem_singleton] at hcommand
    rw [hcommand]
    rfl
  · simp [hquiet.evts event hevent]
  · simp [XhciCommands.submit, hquiet.cmdsEvts]

/-- The call in progress returns. -/
theorem LastOnly.ret (h : s.LastOnly) {r : SubmitReturn} (hr : r.Own) : (s.ret r).LastOnly := by
  refine ⟨by simp [XhciCommands.ret, SubmitPc.command], h.outstanding, h.evts, h.cmdsEvts, ?_⟩
  intro r' hr'
  rcases List.mem_append.mp hr' with hr' | hr'
  · exact h.returned r' hr'
  · exact List.mem_singleton.mp hr' ▸ hr

theorem LastOnly.poll (h : s.LastOnly) {command : Nat} {trb : Trb} {timeout : Nat}
    (hpc : s.pc = .check command trb timeout) : (s.poll command trb timeout).LastOnly := by
  have hcommand : command + 1 = s.next := h.pc command (by rw [hpc]; rfl)
  unfold XhciCommands.poll
  split
  · refine ⟨?_, h.outstanding, h.evts, h.cmdsEvts, h.returned⟩
    rintro _ ⟨rfl⟩
    exact hcommand
  · next event rest hfifo =>
      obtain ⟨command', hevent, hlast⟩ := h.cmdsEvts event (by simp [hfifo])
      obtain rfl : command' = command := by omega
      have hrest : LastOnly { s with cmdsEvts := rest } :=
        ⟨h.pc, h.outstanding, h.evts, fun e he => h.cmdsEvts e (by simp [hfifo, he]), h.returned⟩
      exact hrest.ret fun _ => ⟨event, rfl, hevent, rfl, rfl⟩

theorem LastOnly.wake (h : s.LastOnly) {command : Nat} {trb : Trb} {timeout : Nat}
    (hpc : s.pc = .sleep command trb timeout) : (s.wake command trb timeout).LastOnly := by
  unfold XhciCommands.wake
  split
  · exact h.ret fun hcode => absurd rfl hcode
  · refine ⟨?_, h.outstanding, h.evts, h.cmdsEvts, h.returned⟩
    rintro _ ⟨rfl⟩
    exact h.pc command (by rw [hpc]; rfl)

theorem LastOnly.fifoWrite (h : s.LastOnly) {event : XhciEvent}
    (hevent : ∃ command, event.command = some command ∧ command + 1 = s.next) :
    (s.fifoWrite event).LastOnly := by
  unfold XhciCommands.fifoWrite
  split
  · exact h
  · refine ⟨h.pc, h.outstanding, h.evts, fun e he => ?_, h.returned⟩
    rcases List.mem_append.mp he with he | he
    · exact h.cmdsEvts e he
    · exact List.mem_singleton.mp he ▸ hevent

theorem LastOnly.process (h : s.LastOnly) {event : XhciEvent} {rest : List XhciEvent}
    (hevts : s.evts = event :: rest) :
    (processEvent { s with evts := rest } event).LastOnly := by
  obtain ⟨htype, hlast⟩ := h.evts event (by simp [hevts])
  have hrest : LastOnly { s with evts := rest } :=
    ⟨h.pc, h.outstanding, fun e he => h.evts e (by simp [hevts, he]), h.cmdsEvts, h.returned⟩
  unfold processEvent
  split
  · next hcomplete =>
      obtain ⟨command, hcommand⟩ :=
        Option.ne_none_iff_exists'.mp fun hnone => htype.mp hnone hcomplete
      exact hrest.fifoWrite ⟨command, hcommand, hlast command hcommand⟩
  · exact hrest

theorem LastOnly.step (h : s.LastOnly) {call : XhciCall} (hquiet : s.SubmitsQuiet call)
    (hstep : XhciStep s call t) : t.LastOnly := by
  cases hstep with
  | submit => exact h.submit hquiet _
  | poll hpc => exact h.poll hpc
  | wake hpc => exact h.wake hpc
  | @complete pre post command trb houtstanding htype =>
      have hlast : command + 1 = s.next := h.outstanding command (by simp [houtstanding])
      refine ⟨h.pc, fun c hc => ?_, fun event hevent => ?_, h.cmdsEvts, h.returned⟩
      · apply h.outstanding c
        rw [houtstanding]
        rcases List.mem_append.mp hc with hc | hc
        · exact List.mem_append_left _ hc
        · exact List.mem_append_right _ (List.mem_cons_of_mem _ hc)
      · rcases List.mem_append.mp hevent with hevent | hevent
        · exact h.evts event hevent
        · obtain rfl := List.mem_singleton.mp hevent
          simp only [reduceCtorEq, htype, ne_eq, not_true_eq_false, Option.mem_def,
            Option.some.injEq, forall_eq', true_and]
          exact hlast
  | post htype =>
      refine ⟨h.pc, h.outstanding, fun event hevent => ?_, h.cmdsEvts, h.returned⟩
      rcases List.mem_append.mp hevent with hevent | hevent
      · exact h.evts event hevent
      · obtain rfl := List.mem_singleton.mp hevent
        simp [htype]
  | process hevts => exact h.process hevts

/-! ## A completion that is left over -/

/-- A completion that is not the one of command `command`, with a code. -/
def Foreign (command : Nat) (event : XhciEvent) : Prop :=
  event.command ≠ some command ∧ completionCode event.trb ≠ ccInvalid

/-- A completion with the code `CC_SUCCESS`. -/
def success : Trb := ⟨0, 1 <<< 24, 33 <<< 10⟩

theorem trbType_success : trbType success.control = erCommandComplete := by
  decide

theorem completionCode_success : completionCode success ≠ ccInvalid := by
  decide

/-- The call reads what is first in the FIFO. -/
theorem not_allOwn_of_first {command timeout : Nat} {trb : Trb} {event : XhciEvent}
    {rest : List XhciEvent} (hpc : s.pc = .check command trb timeout)
    (hfifo : s.cmdsEvts = event :: rest) (hforeign : Foreign command event) :
    ∃ t, xhciSystem.Steps s t ∧ ¬ t.AllOwn := by
  refine ⟨_, .single ⟨.poll, .poll hpc⟩, fun hown => ?_⟩
  simp only [XhciCommands.poll, hfifo] at hown
  obtain ⟨event', hread, hcommand, -⟩ :=
    hown _ (List.mem_append_right _ (List.mem_singleton_self _)) hforeign.2
  obtain rfl := Option.some.inj hread
  exact hforeign.1 hcommand

/-- The first completion on the event ring becomes the first one in the FIFO. -/
theorem not_allOwn_of_evts {command timeout : Nat} {trb : Trb} {evts : List XhciEvent}
    (hpc : s.pc = .check command trb timeout) (hevts : s.evts = evts) (hfifo : s.cmdsEvts = [])
    (hforeign : ∀ event ∈ evts, trbType event.trb.control = erCommandComplete →
      Foreign command event)
    (hsome : ∃ event ∈ evts, trbType event.trb.control = erCommandComplete) :
    ∃ t, xhciSystem.Steps s t ∧ ¬ t.AllOwn := by
  induction evts generalizing s with
  | nil => simp at hsome
  | cons event rest ih =>
      have hstep : XhciStep s .process (processEvent { s with evts := rest } event) :=
        .process hevts
      by_cases htype : trbType event.trb.control = erCommandComplete
      · have hprocess : processEvent { s with evts := rest } event =
            { s with evts := rest, cmdsEvts := [event] } := by
          rw [processEvent, if_pos htype, fifoWrite, if_neg (by simp [hfifo])]
          simp [hfifo]
        rw [hprocess] at hstep
        obtain ⟨t, hsteps, hbad⟩ := not_allOwn_of_first
          (s := { s with evts := rest, cmdsEvts := [event] }) hpc rfl
          (hforeign event (List.mem_cons_self ..) htype)
        exact ⟨t, .head ⟨_, hstep⟩ hsteps, hbad⟩
      · rw [processEvent, if_neg htype] at hstep
        obtain ⟨t, hsteps, hbad⟩ := ih (s := { s with evts := rest }) hpc rfl hfifo
          (fun e he => hforeign e (List.mem_cons_of_mem _ he)) (by
            obtain ⟨e, he, hcomplete⟩ := hsome
            rcases List.mem_cons.mp he with rfl | he
            · exact absurd hcomplete htype
            · exact ⟨e, he, hcomplete⟩)
        exact ⟨t, .head ⟨_, hstep⟩ hsteps, hbad⟩

/-- A submission while a completion is left over can be answered with that completion. -/
theorem LastOnly.not_allOwn (h : s.LastOnly) (hquiet : ¬ s.Quiet)
    (hcodes : ∀ event ∈ s.evts ++ s.cmdsEvts, completionCode event.trb ≠ ccInvalid) (trb : Trb) :
    ∃ t, xhciSystem.Steps (s.submit trb) t ∧ ¬ t.AllOwn := by
  have hne {command : Nat} (hlast : command + 1 = s.next) : some command ≠ some s.next := by
    intro heq
    have := Option.some.inj heq
    omega
  have hforeign : ∀ event ∈ s.evts, trbType event.trb.control = erCommandComplete →
      Foreign s.next event := by
    intro event hevent htype
    obtain ⟨hnone, hlast⟩ := h.evts event hevent
    obtain ⟨command, hcommand⟩ :=
      Option.ne_none_iff_exists'.mp fun hno => hnone.mp hno htype
    refine ⟨?_, hcodes event (List.mem_append_left _ hevent)⟩
    rw [hcommand]
    exact hne (hlast command hcommand)
  cases hfifo : s.cmdsEvts with
  | cons event rest =>
      obtain ⟨command, hcommand, hlast⟩ := h.cmdsEvts event (by simp [hfifo])
      refine not_allOwn_of_first (s := s.submit trb) rfl hfifo ⟨?_, hcodes event (by simp [hfifo])⟩
      rw [hcommand]
      exact hne hlast
  | nil =>
      by_cases hsome : ∃ event ∈ s.evts, trbType event.trb.control = erCommandComplete
      · exact not_allOwn_of_evts (s := s.submit trb) rfl rfl hfifo hforeign hsome
      · -- The controller has yet to complete the earlier command, and does it now.
        obtain ⟨command, hcommand⟩ : ∃ command, command ∈ s.outstanding := by
          apply List.exists_mem_of_ne_nil
          intro hnil
          refine hquiet ⟨hnil, fun event hevent => ?_, hfifo⟩
          exact (h.evts event hevent).1.mpr fun htype => hsome ⟨event, hevent, htype⟩
        obtain ⟨pre, post, hsplit⟩ := List.append_of_mem hcommand
        have houtstanding : (s.submit trb).outstanding = pre ++ command :: (post ++ [s.next]) := by
          simp [XhciCommands.submit, hsplit]
        have hstep := XhciStep.complete houtstanding trbType_success
        obtain ⟨t, hsteps, hbad⟩ := not_allOwn_of_evts (s := { s.submit trb with
            outstanding := pre ++ (post ++ [s.next])
            evts := s.evts ++ [⟨success, some command⟩] }) rfl rfl hfifo (by
          intro event hevent htype
          rcases List.mem_append.mp hevent with hevent | hevent
          · exact hforeign event hevent htype
          · obtain rfl := List.mem_singleton.mp hevent
            exact ⟨hne (h.outstanding command hcommand), completionCode_success⟩)
          ⟨_, List.mem_append_right _ (List.mem_singleton_self _), trbType_success⟩
        exact ⟨t, .head ⟨_, hstep⟩ hsteps, hbad⟩

end XhciCommands

theorem lastOnly_of_reachable {s : XhciCommands}
    (hreach : xhciSystem.ReachableWhen XhciCommands.SubmitsQuiet s) : s.LastOnly :=
  hreach.invariant (fun _ => XhciCommands.LastOnly.init)
    fun _ _ _ h hquiet hstep => h.step hquiet hstep

/-- If every command is submitted when no completion of an earlier one is left, each call
returns the completion of its own command. A submission at any other time can be answered
with the completion that is left. -/
theorem xhciSystem_own {s : XhciCommands}
    (hreach : xhciSystem.ReachableWhen XhciCommands.SubmitsQuiet s) :
    s.AllOwn ∧ ∀ trb t, XhciStep s (.submit trb) t → ¬ s.SubmitsQuiet (.submit trb) →
      (∀ event ∈ s.evts ++ s.cmdsEvts, completionCode event.trb ≠ ccInvalid) →
        ∃ u, xhciSystem.Steps t u ∧ ¬ u.AllOwn := by
  refine ⟨(lastOnly_of_reachable hreach).returned, ?_⟩
  intro trb t hstep hquiet hcodes
  cases hstep with
  | submit => exact (lastOnly_of_reachable hreach).not_allOwn hquiet hcodes trb

namespace XhciCommands

/-- The first command has timed out: the controller has still to complete it. -/
def timedOut : XhciCommands :=
  ⟨.idle, 1, [0], [], [], [⟨0, ccInvalid, ⟨0, 0, 23 <<< 10⟩, none⟩]⟩

/-- With nothing in the FIFO the call sleeps for a tick. -/
theorem reachable_sleep {command timeout : Nat} {trb : Trb}
    (hreach : xhciSystem.ReachableWhen SubmitsQuiet s) (hpc : s.pc = .check command trb timeout)
    (hfifo : s.cmdsEvts = []) :
    xhciSystem.ReachableWhen SubmitsQuiet { s with pc := .sleep command trb timeout } := by
  have hpoll : s.poll command trb timeout = { s with pc := .sleep command trb timeout } := by
    rw [XhciCommands.poll, hfifo]
  rw [← hpoll]
  exact hreach.step (a := XhciCall.poll) trivial (XhciStep.poll hpc)

/-- While the FIFO is empty the call in progress goes on until it times out. -/
theorem reachable_timeout (n : Nat) {s : XhciCommands} {command : Nat} {trb : Trb}
    (hreach : xhciSystem.ReachableWhen SubmitsQuiet s) (hpc : s.pc = .check command trb (n + 1))
    (hfifo : s.cmdsEvts = []) :
    xhciSystem.ReachableWhen SubmitsQuiet (s.ret ⟨command, ccInvalid, trb, none⟩) := by
  have hwake : xhciSystem.ReachableWhen SubmitsQuiet
      (XhciCommands.wake { s with pc := .sleep command trb (n + 1) } command trb (n + 1)) :=
    (reachable_sleep hreach hpc hfifo).step (a := XhciCall.wake) trivial (XhciStep.wake rfl)
  induction n generalizing s with
  | zero => exact hwake
  | succ n ih =>
      have hcheck : xhciSystem.ReachableWhen SubmitsQuiet
          { s with pc := .check command trb (n + 1) } := hwake
      exact ih (s := { s with pc := .check command trb (n + 1) }) hcheck rfl hfifo
        ((reachable_sleep hcheck rfl hfifo).step (a := XhciCall.wake) trivial (XhciStep.wake rfl))

theorem reachable_timedOut : xhciSystem.ReachableWhen SubmitsQuiet timedOut := by
  have hinit : XhciCommandsInit ⟨.idle, 0, [], [], [], []⟩ := ⟨rfl, rfl, rfl, rfl, rfl, rfl⟩
  have hquiet : Quiet ⟨.idle, 0, [], [], [], []⟩ := ⟨rfl, fun _ h => absurd h (by simp), rfl⟩
  have hreach : xhciSystem.ReachableWhen SubmitsQuiet ⟨.idle, 0, [], [], [], []⟩ := .init hinit
  have hsubmit := hreach.step (a := XhciCall.submit ⟨0, 0, 23 <<< 10⟩) hquiet (XhciStep.submit rfl)
  exact reachable_timeout 199 hsubmit rfl rfl

end XhciCommands

/-- A command that timed out leaves its completion to the next one. -/
theorem timedOut_answers_next :
    XhciCommands.timedOut.AllOwn ∧
      ∃ u, xhciSystem.Steps (XhciCommands.timedOut.submit ⟨0, 0, 9 <<< 10⟩) u ∧ ¬ u.AllOwn :=
  ⟨(xhciSystem_own XhciCommands.reachable_timedOut).1,
    (xhciSystem_own XhciCommands.reachable_timedOut).2 _ _ (.submit rfl)
      (fun hquiet => absurd hquiet.outstanding (by decide))
      (by simp [XhciCommands.timedOut])⟩

/-- Not every run gives each call the completion of its own command. -/
theorem xhciSystem_stale : ¬ ∀ s, xhciSystem.Reachable s → s.AllOwn := by
  intro hall
  obtain ⟨u, hsteps, hbad⟩ := XhciCommands.LastOnly.not_allOwn
    (lastOnly_of_reachable XhciCommands.reachable_timedOut)
    (fun hquiet => absurd hquiet.outstanding (by decide)) (by simp [XhciCommands.timedOut])
    ⟨0, 0, 9 <<< 10⟩
  have hreach : xhciSystem.Reachable XhciCommands.timedOut :=
    XhciCommands.reachable_timedOut.mono fun _ _ _ => trivial
  have hsubmit := hreach.step (a := XhciCall.submit ⟨0, 0, 9 <<< 10⟩) trivial
    (XhciStep.submit rfl)
  exact hbad (hall u (hsteps.reachable hsubmit))

end ClayFigure
