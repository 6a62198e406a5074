/-
# The service that counts ticks

A timer softirq posts a notification to the service `tick`, which adds one for each it receives
and answers requests with its count. Notifications and messages of clients come out of the same
`msg_recv`, the notification is one flag, and the service tells the two apart by `type`, which a
client may choose. The runs here are those of the message calls with the service's loop as one of
the tasks.
-/

import ClayFigure.Syscall.Senders

namespace ClayFigure

open ClayFigure.Math

namespace Tick

/-! ## The code -/

/-- The words of a message. -/
abbrev Words : Type := Fin 8 → BitVec 64

/-- `TICK`, read as a `pid_t`. -/
abbrev tickService : Int := -0x80000000

/-- `RECV_FROM_INT`, compared with a `type`. -/
abbrev recvFromIntType : BitVec 32 := BitVec.ofInt 32 recvFromInt

/-- `TICK_GET_TICKS`. -/
abbrev tickGetTicks : BitVec 32 := 1

/-- `msg` after `memset`. -/
def zeroMessage : Message Words := ⟨0, 0, fun _ => 0⟩

/-- The reply to a request. -/
def reply (msg : Message Words) (ticks : BitVec 64) : Message Words :=
  { msg with m := Function.update msg.m ⟨0, by decide⟩ ticks }

/-- Where the loop of `tick_main` is: about to receive, inside of `msg_recv`, in the `switch` with
what it has received, or inside of `msg_send`. -/
inductive MainPc
  | top
  | receiving
  | handle (msg : Message Words)
  | replying

/-- All tasks, with the variables of `tick_main`. The last three fields are not read: how many
timer softirqs have posted their notification, how many had when the service took the message it
has from its list, and the counts that it has reported, each with that number. -/
structure State where
  ipc : Ipc Words
  pc : MainPc
  ticks : BitVec 64
  posted : Nat
  postedAtReceive : Nat
  reports : List (BitVec 64 × Nat)

/-- A timer softirq, the next step of the service, or a step of anything else. -/
inductive Event
  | timer
  | serve
  | other (c : IpcCall Words)

/-- What `msg_recv` has put into `msg` when it returns from here. -/
def recvResult : Pc Words → Option (Message Words)
  | .recvIntrTake _ msg => some (Ipc.intrMessage msg)
  | .recvCount _ _ msg => some msg
  | _ => none

/-- The next step takes a sender out of the list. -/
def popsNext : Pc Words → Bool
  | .recvPop _ => true
  | _ => false

/-- The state after a step inside of `msg_recv`. The source `RECV_FROM_ANY` is never refused, so a
receive ends with a message. -/
def afterRecv (tick : Slot) (s : State) (ipc : Ipc Words) : State :=
  { s with
    ipc
    pc := (recvResult (s.ipc.pc tick)).elim .receiving .handle
    postedAtReceive := if popsNext (s.ipc.pc tick) then s.posted else s.postedAtReceive }

/-- The state after a step inside of `msg_send`. -/
def afterSend (tick : Slot) (s : State) (ipc : Ipc Words) : State :=
  { s with
    ipc
    pc := match ipc.pc tick with
      | .user => .top
      | _ => .replying }

/-- The next step of `tick_main`, whose task is in the slot `tick`. -/
def serve (tick : Slot) (s : State) : Option State :=
  match s.pc with
  | .top =>
      (ipcStep s.ipc (.recv tick recvFromAny zeroMessage)).map fun ipc =>
        { s with ipc, pc := .receiving }
  | .receiving => (s.ipc.run tick).map (afterRecv tick s)
  | .handle msg =>
      if msg.type = recvFromIntType then some { s with ticks := s.ticks + 1, pc := .top }
      else if msg.type = tickGetTicks then
        (ipcStep s.ipc (.send tick msg.src (reply msg s.ticks))).map fun ipc =>
          { s with ipc, pc := .replying, reports := s.reports ++ [(s.ticks, s.postedAtReceive)] }
      else some { s with pc := .top }
  | .replying => (s.ipc.run tick).map (afterSend tick s)

/-- The step is not one of the service, nor a notification to it. -/
def Foreign (tick : Slot) (ipc : Ipc Words) : IpcCall Words → Bool
  | .send p _ _ => p ≠ tick
  | .recv p _ _ => p ≠ tick
  | .wait p => p ≠ tick
  | .resume p => p ≠ tick
  | .run p => p ≠ tick
  | .intr dst => (ipc.service dst).getD dst ≠ pidOf tick
  | .check _ => true

/-- One step. `timer_softirq` notifies the service, and no other softirq does. -/
def step (tick : Slot) (s : State) : Event → Option State
  | .timer => some { s with ipc := s.ipc.informIntr tickService, posted := s.posted + 1 }
  | .serve => serve tick s
  | .other c =>
      if Foreign tick s.ipc c then (ipcStep s.ipc c).map fun ipc => { s with ipc } else none

/-- The service has been started and nothing has been posted to it. -/
structure Init (tick : Slot) (s : State) : Prop where
  ipc : IpcInit s.ipc
  exist : s.ipc.exist tick = true
  service : s.ipc.service tickService = some (pidOf tick)
  hasIntrMsg : (s.ipc.task tick).hasIntrMsg = 0
  pc : s.pc = .top
  ticks : s.ticks = 0
  posted : s.posted = 0
  reports : s.reports = []

/-- All interleavings of timer softirqs, the service and the other tasks. -/
def system (tick : Slot) : System State Event where
  init := Init tick
  step s e t := step tick s e = some t

/-! ## What steps leave alone -/

section Frame

variable {s t : Ipc Words} {p q : Slot}

/-- The flag of a pending notification is cleared by its own task only. -/
theorem run_hasIntrMsg (hrun : s.run p = some t)
    (hq : q ≠ p ∨ ∀ src msg, s.pc p ≠ .recvIntrTake src msg) :
    (t.task q).hasIntrMsg = (s.task q).hasIntrMsg := by
  have hset (u : Ipc Words) (r : Slot) (task : IpcTask Words)
      (htask : task.hasIntrMsg = (u.task r).hasIntrMsg) :
      ((u.setTask r task).task q).hasIntrMsg = (u.task q).hasIntrMsg := by
    rw [Ipc.setTask_task]
    split
    · next heq => rw [heq, htask]
    · rfl
  cases hpc : s.pc p with
  | user | waiting | sending | receiving => simp [Ipc.run, hpc] at hrun
  | sendAppend | recvRemove =>
      simp only [Ipc.run, hpc, Option.bind_eq_bind, Option.bind_eq_some_iff] at hrun
      obtain ⟨r, -, k, -, hrun⟩ := hrun
      cases hrun
      rfl
  | recvPop =>
      simp only [Ipc.run, hpc] at hrun
      split at hrun <;> cases hrun
      rfl
  | sendCheck =>
      simp only [Ipc.run, hpc] at hrun
      split_ifs at hrun <;> cases hrun
      · exact hset s p _ rfl
      · rfl
  | recvCheck =>
      simp only [Ipc.run, hpc] at hrun
      split_ifs at hrun <;> cases hrun
      · rfl
      · exact hset s p _ rfl
  | recvSelect =>
      simp only [Ipc.run, hpc] at hrun
      split_ifs at hrun <;> cases hrun <;> rfl
  | recvIntrTake src msg =>
      have hne : q ≠ p := hq.resolve_right fun h => h src msg hpc
      simp only [Ipc.run, hpc] at hrun
      cases hrun
      change ((s.setTask p _).task q).hasIntrMsg = _
      rw [Ipc.setTask_task, if_neg hne]
  | recvInform src sender msg | recvCount src sender msg =>
      simp only [Ipc.run, hpc] at hrun
      cases hrun
      exact hset s sender _ rfl
  | sendClear | recvClear | sendFill | sendCount | recvSet | recvIntrClear | recvRelease =>
      simp only [Ipc.run, hpc] at hrun
      cases hrun
      exact hset s p _ rfl
  | sendBlock | recvBlock | sendReturn | recvCopy =>
      simp only [Ipc.run, hpc] at hrun
      cases hrun
      rfl

theorem wake_task (s : Ipc Words) (p : Slot) :
    (s.wake p).task = s.task ∧ (s.wake p).service = s.service := by
  unfold Ipc.wake
  split <;> exact ⟨rfl, rfl⟩

/-- What the check does to the blocked task: nothing, or it wakes it. -/
inductive Checked : Pc Words → Pc Words → Prop
  | same (pc : Pc Words) : Checked pc pc
  | sent (dst : Int) (msg : Message Words) : Checked (.sending dst msg) .sendReturn
  | ready (src : Int) (msg : Message Words) : Checked (.receiving src msg) (.recvSelect src msg)

theorem wake_checked (s : Ipc Words) (p : Slot) : Checked (s.pc p) ((s.wake p).pc p) := by
  unfold Ipc.wake
  split
  · next dst msg hpc =>
      rw [hpc, Ipc.setPc_pc, if_pos rfl]
      exact .sent dst msg
  · next src msg hpc =>
      rw [hpc, Ipc.setPc_pc, if_pos rfl]
      exact .ready src msg
  · exact .same _

/-- The check of a blocked task posts nothing and takes nothing back. -/
theorem ipcCheck_frame (hstep : s.ipcCheck p = some t) :
    Checked (s.pc p) (t.pc p) ∧ t.service = s.service ∧
      ∀ q, (t.task q).hasIntrMsg = (s.task q).hasIntrMsg := by
  have hset (c : CheckPc) : Checked (s.pc p) ((s.setCheck p c).pc p) ∧
      (s.setCheck p c).service = s.service ∧
      ∀ q, ((s.setCheck p c).task q).hasIntrMsg = (s.task q).hasIntrMsg :=
    ⟨.same _, rfl, fun q => rfl⟩
  unfold Ipc.ipcCheck at hstep
  split at hstep
  · cases hstep
  · split at hstep
    case h_4 =>
      dsimp only at hstep
      split_ifs at hstep <;> cases hstep <;> exact hset _
    case h_6 sender _ =>
      simp only [Option.bind_eq_bind, Option.bind_eq_some_iff] at hstep
      obtain ⟨r, -, found, -, hstep⟩ := hstep
      split at hstep <;> cases hstep <;> exact hset _
    case h_7 =>
      cases hstep
      refine ⟨wake_checked (s.setTask p { s.task p with recvFlag := 0 }) p,
        (wake_task _ p).2, fun q => ?_⟩
      rw [(wake_task _ p).1, Ipc.setTask_task]
      split
      · next heq => rw [heq]
      · rfl
    case h_8 =>
      split at hstep <;> cases hstep
      · exact hset _
      · exact ⟨wake_checked s p, (wake_task s p).2, fun q => by rw [(wake_task s p).1]⟩
    all_goals split at hstep <;> cases hstep <;> exact hset _

/-- The message that a task in `msg_send` sends, and to whom. -/
def outgoing : Pc Words → Option (Int × Message Words)
  | .sendClear dst msg | .sendCheck dst msg | .sendFill dst msg | .sendAppend dst msg
  | .sendCount dst msg | .sendBlock dst msg | .sending dst msg => some (dst, msg)
  | _ => none

/-- No message to the task in the slot `tick` has a type that the service would take for a
notification. -/
def Plain (tick : Slot) (pc : Pc Words) : Prop :=
  ∀ dst msg, outgoing pc = some (dst, msg) → dst = pidOf tick → msg.type ≠ recvFromIntType

theorem plain_of_none {tick : Slot} {pc : Pc Words} (h : outgoing pc = none) : Plain tick pc :=
  fun _ _ hsome => by cases h.symm.trans hsome

theorem Checked.plain {tick : Slot} {pc pc' : Pc Words} (h : Checked pc pc')
    (hplain : Plain tick pc) : Plain tick pc' := by
  cases h with
  | same => exact hplain
  | sent => exact plain_of_none rfl
  | ready => exact plain_of_none rfl

/-- On its way through `msg_send` a message keeps its type and its destination. -/
theorem run_plain {tick : Slot} (hrun : s.run p = some t) (hplain : Plain tick (s.pc p)) :
    Plain tick (t.pc p) := by
  have hset (u : Ipc Words) (pc : Pc Words) (hpc : Plain tick pc) :
      Plain tick ((u.setPc p pc).pc p) := by
    rw [Ipc.setPc_pc, if_pos rfl]
    exact hpc
  cases hpc : s.pc p with
  | user | waiting | sending | receiving => simp [Ipc.run, hpc] at hrun
  | sendAppend dst msg =>
      rw [hpc] at hplain
      simp only [Ipc.run, hpc, Option.bind_eq_bind, Option.bind_eq_some_iff] at hrun
      obtain ⟨r, -, k, -, hrun⟩ := hrun
      cases hrun
      exact hset _ _ hplain
  | recvRemove src =>
      simp only [Ipc.run, hpc, Option.bind_eq_bind, Option.bind_eq_some_iff] at hrun
      obtain ⟨r, -, k, -, hrun⟩ := hrun
      cases hrun
      exact hset _ _ (plain_of_none rfl)
  | recvPop src =>
      simp only [Ipc.run, hpc] at hrun
      split at hrun <;> cases hrun
      exact hset _ _ (plain_of_none rfl)
  | sendCheck dst msg =>
      rw [hpc] at hplain
      simp only [Ipc.run, hpc] at hrun
      split_ifs at hrun <;> cases hrun
      · refine hset _ _ fun dst' msg' hout => ?_
        cases hout
        exact hplain dst msg rfl
      · exact hset _ _ (plain_of_none rfl)
  | recvCheck | recvSelect =>
      simp only [Ipc.run, hpc] at hrun
      split_ifs at hrun <;> cases hrun <;> exact hset _ _ (plain_of_none rfl)
  | sendClear dst msg | sendFill dst msg | sendCount dst msg | sendBlock dst msg =>
      rw [hpc] at hplain
      simp only [Ipc.run, hpc] at hrun
      cases hrun
      exact hset _ _ hplain
  | _ =>
      simp only [Ipc.run, hpc] at hrun
      cases hrun
      exact hset _ _ (plain_of_none rfl)

/-- The message of a sender that has been taken out of the list is the one it sends. -/
theorem outgoing_of_held {contents : Slot → List Slot} {place : Slot → Place}
    (h : IpcInv s contents place) {src : Int} {sender : Slot}
    (hpc : s.pc p = .recvCopy src sender) :
    outgoing (s.pc sender) = some (pidOf p, (s.task sender).msg) := by
  have hplace : place sender = .held p := (h.held p sender).mp (by rw [hpc]; rfl)
  have hsend := (h.tasks sender).send
  rw [hplace] at hsend
  have hposted {flag : BitVec 64} {dst : Int} {msg : Message Words}
      (hposted : Posted flag dst msg (s.task sender) (s.record sender) (.held p)) :
      (dst, msg) = (pidOf p, (s.task sender).msg) := by
    rw [hposted.1, hposted.2.1]
  cases hcase : s.pc sender with
  | sendCount dst msg | sendBlock dst msg | sending dst msg =>
      rw [hcase] at hsend
      exact congrArg some (hposted hsend.1)
  | sendFill dst msg | sendAppend dst msg =>
      rw [hcase] at hsend
      cases hsend.2.1
  | _ =>
      rw [hcase] at hsend
      cases hsend.1.1

/-- The slots in use and the pids of the services stay as they are. -/
structure Fixed (s t : Ipc Words) : Prop where
  exist : t.exist = s.exist
  service : t.service = s.service

theorem run_fixed (hrun : s.run p = some t) : Fixed s t := by
  cases hpc : s.pc p with
  | user | waiting | sending | receiving => simp [Ipc.run, hpc] at hrun
  | sendAppend | recvRemove =>
      simp only [Ipc.run, hpc, Option.bind_eq_bind, Option.bind_eq_some_iff] at hrun
      obtain ⟨r, -, k, -, hrun⟩ := hrun
      cases hrun
      exact ⟨rfl, rfl⟩
  | recvPop =>
      simp only [Ipc.run, hpc] at hrun
      split at hrun <;> cases hrun
      exact ⟨rfl, rfl⟩
  | sendCheck | recvCheck | recvSelect =>
      simp only [Ipc.run, hpc] at hrun
      split_ifs at hrun <;> cases hrun <;> exact ⟨rfl, rfl⟩
  | _ =>
      simp only [Ipc.run, hpc] at hrun
      cases hrun
      exact ⟨rfl, rfl⟩

theorem informIntr_fixed (s : Ipc Words) (dst : Int) : Fixed s (s.informIntr dst) := by
  unfold Ipc.informIntr
  split <;> exact ⟨rfl, rfl⟩

theorem ipcStep_fixed {c : IpcCall Words} (hstep : ipcStep s c = some t) : Fixed s t := by
  cases c with
  | send p dst msg | recv p src msg | wait p | resume p =>
      simp only [ipcStep] at hstep
      split at hstep <;> cases hstep
      exact ⟨rfl, rfl⟩
  | run p => exact run_fixed hstep
  | intr dst =>
      cases hstep
      exact informIntr_fixed s dst
  | check p => exact ⟨(Ipc.ipcCheck_keeps hstep).exist, (ipcCheck_frame hstep).2.1⟩

/-- A step of another task leaves the service where it is or wakes it, and its flag alone. -/
theorem foreign_frame {tick : Slot} {c : IpcCall Words} (hforeign : Foreign tick s c = true)
    (hstep : ipcStep s c = some t) :
    Checked (s.pc tick) (t.pc tick) ∧
      (t.task tick).hasIntrMsg = (s.task tick).hasIntrMsg := by
  have hmoved {p : Slot} (hp : decide (p ≠ tick) = true) (pc : Pc Words) :
      Checked (s.pc tick) ((s.setPc p pc).pc tick) ∧
        ((s.setPc p pc).task tick).hasIntrMsg = (s.task tick).hasIntrMsg := by
    rw [Ipc.setPc_pc, if_neg (Ne.symm (of_decide_eq_true hp))]
    exact ⟨.same _, rfl⟩
  cases c with
  | send p dst msg | recv p src msg | wait p | resume p =>
      simp only [ipcStep] at hstep
      split at hstep <;> cases hstep
      exact hmoved hforeign _
  | run p =>
      have hne : tick ≠ p := Ne.symm (of_decide_eq_true hforeign)
      rw [Ipc.run_pc hstep hne]
      exact ⟨.same _, run_hasIntrMsg hstep (Or.inl hne)⟩
  | intr dst =>
      cases hstep
      have hdst : (s.service dst).getD dst ≠ pidOf tick := of_decide_eq_true hforeign
      unfold Ipc.informIntr
      split
      · exact ⟨.same _, rfl⟩
      · next receiver hreceiver =>
          have hne : tick ≠ receiver := by
            rintro rfl
            exact hdst (Ipc.pidToTask_eq_some.mp hreceiver).1
          rw [Ipc.setTask_task, if_neg hne]
          exact ⟨.same _, rfl⟩
  | check p =>
      obtain ⟨hchecked, -, hintr⟩ := ipcCheck_frame hstep
      refine ⟨?_, hintr tick⟩
      by_cases hp : tick = p
      · rw [hp]
        exact hchecked
      · rw [(Ipc.ipcCheck_pc hstep).2 tick hp]
        exact .same _

theorem ipcStep_plain {tick : Slot} {c : IpcCall Words} (hstep : ipcStep s c = some t)
    (hsend : ∀ p dst msg, c = .send p dst msg → dst = pidOf tick → msg.type ≠ recvFromIntType)
    (hplain : ∀ q, Plain tick (s.pc q)) (q : Slot) : Plain tick (t.pc q) := by
  have hset {p : Slot} {pc : Pc Words} (hpc : Plain tick pc) :
      Plain tick ((s.setPc p pc).pc q) := by
    rw [Ipc.setPc_pc]
    split
    · exact hpc
    · exact hplain q
  cases c with
  | send p dst msg =>
      simp only [ipcStep] at hstep
      split at hstep <;> cases hstep
      refine hset fun dst' msg' hout => ?_
      cases hout
      exact hsend p dst msg rfl
  | recv p src msg | wait p | resume p =>
      simp only [ipcStep] at hstep
      split at hstep <;> cases hstep
      exact hset (plain_of_none rfl)
  | run p =>
      by_cases hq : q = p
      · rw [hq]
        exact run_plain hstep (hplain p)
      · rw [Ipc.run_pc hstep hq]
        exact hplain q
  | intr dst =>
      cases hstep
      have hpc : (s.informIntr dst).pc = s.pc := by
        unfold Ipc.informIntr
        split <;> rfl
      rw [hpc]
      exact hplain q
  | check p =>
      by_cases hq : q = p
      · rw [hq]
        exact (ipcCheck_frame hstep).1.plain (hplain p)
      · rw [(Ipc.ipcCheck_pc hstep).2 q hq]
        exact hplain q

end Frame

/-! ## What the service has counted -/

/-- A posted notification that has not been received. -/
def pending (tick : Slot) (ipc : Ipc Words) : BitVec 64 :=
  if (ipc.task tick).hasIntrMsg = 0 then 0#64 else 1#64

/-- A notification that has been received and not been counted. -/
def inHand : MainPc → BitVec 64
  | .handle msg => if msg.type = recvFromIntType then 1#64 else 0#64
  | _ => 0#64

/-- Where the service is in `msg_recv`, if no notification came while it was about to take a
sender out of its list: `clear` says that none is pending, `fresh` that the service has counted all
that had been posted when it took a message out. -/
def Receives (clear fresh : Prop) : Pc Words → Prop
  | .recvClear src _ | .recvCheck src _ | .recvSet src _ | .recvBlock src _ | .receiving src _
  | .recvSelect src _ => src = recvFromAny
  | .recvIntrClear _ _ | .recvIntrTake _ _ => ¬ clear
  | .recvPop _ => clear
  | .recvCopy _ _ => fresh
  | .recvRelease _ _ msg | .recvInform _ _ msg | .recvCount _ _ msg =>
      fresh ∧ msg.type ≠ recvFromIntType
  | _ => False

/-- The service is inside of `msg_send`. -/
def Replies : Pc Words → Prop
  | .sendClear _ _ | .sendCheck _ _ | .sendFill _ _ | .sendAppend _ _ | .sendCount _ _
  | .sendBlock _ _ | .sending _ _ | .sendReturn => True
  | _ => False

/-- The service has counted all that had been posted when it took the message that it has. -/
def Fresh (s : State) : Prop := BitVec.ofNat 64 s.postedAtReceive = s.ticks

/-- Where the task of the service is while its loop is where it is. -/
def AtPhase (tick : Slot) (s : State) : Prop :=
  match s.pc with
  | .top => s.ipc.pc tick = .user
  | .receiving => Receives ((s.ipc.task tick).hasIntrMsg = 0) (Fresh s) (s.ipc.pc tick)
  | .handle msg => s.ipc.pc tick = .user ∧ (msg.type ≠ recvFromIntType → Fresh s)
  | .replying => Replies (s.ipc.pc tick)

/-- What the runs keep in which no notification is posted too early and no client sends one. -/
structure Inv (tick : Slot) (s : State) : Prop where
  ipc : (ipcSystem Words).Reachable s.ipc
  exist : s.ipc.exist tick = true
  service : s.ipc.service tickService = some (pidOf tick)
  plain : ∀ q, Plain tick (s.ipc.pc q)
  phase : AtPhase tick s
  count : BitVec.ofNat 64 s.posted = s.ticks + pending tick s.ipc + inHand s.pc
  reports : ∀ r ∈ s.reports, r.1 = BitVec.ofNat 64 r.2

/-- A timer softirq finds no notification pending and the service not about to take a request out
of its list, and no message that is sent to the service has the type of a notification. -/
def Apart (tick : Slot) (s : State) : Event → Prop
  | .timer => (s.ipc.task tick).hasIntrMsg = 0 ∧ popsNext (s.ipc.pc tick) = false
  | .other (.send _ dst msg) => dst = pidOf tick → msg.type ≠ recvFromIntType
  | _ => True

theorem Checked.receives {pc pc' : Pc Words} (h : Checked pc pc') {clear fresh : Prop}
    (hpc : Receives clear fresh pc) : Receives clear fresh pc' := by
  cases h with
  | same => exact hpc
  | sent => exact hpc.elim
  | ready => exact hpc

theorem Checked.replies {pc pc' : Pc Words} (h : Checked pc pc') (hpc : Replies pc) :
    Replies pc' := by
  cases h with
  | same => exact hpc
  | sent => trivial
  | ready => exact hpc.elim

theorem Checked.user {pc' : Pc Words} (h : Checked .user pc') : pc' = .user := by
  cases h
  rfl

/-- A step inside of `msg_send` stays inside or returns. -/
theorem run_replies {s t : Ipc Words} {p : Slot} (hrun : s.run p = some t)
    (hpc : Replies (s.pc p)) : t.pc p = .user ∨ Replies (t.pc p) := by
  have hset (u : Ipc Words) (pc : Pc Words) (hnext : pc = .user ∨ Replies pc) :
      (u.setPc p pc).pc p = .user ∨ Replies ((u.setPc p pc).pc p) := by
    rw [Ipc.setPc_pc, if_pos rfl]
    exact hnext
  cases hcase : s.pc p with
  | sendClear dst msg | sendFill dst msg | sendCount dst msg | sendBlock dst msg =>
      simp only [Ipc.run, hcase] at hrun
      cases hrun
      exact hset _ _ (Or.inr trivial)
  | sendCheck dst msg =>
      simp only [Ipc.run, hcase] at hrun
      split_ifs at hrun <;> cases hrun
      · exact hset _ _ (Or.inr trivial)
      · exact hset _ _ (Or.inl rfl)
  | sendAppend dst msg =>
      simp only [Ipc.run, hcase, Option.bind_eq_bind, Option.bind_eq_some_iff] at hrun
      obtain ⟨r, -, k, -, hrun⟩ := hrun
      cases hrun
      exact hset _ _ (Or.inr trivial)
  | sendReturn =>
      simp only [Ipc.run, hcase] at hrun
      cases hrun
      exact hset _ _ (Or.inl rfl)
  | sending => simp [Ipc.run, hcase] at hrun
  | _ =>
      rw [hcase] at hpc
      exact hpc.elim

theorem pending_congr {tick : Slot} {ipc ipc' : Ipc Words}
    (h : (ipc'.task tick).hasIntrMsg = (ipc.task tick).hasIntrMsg) :
    pending tick ipc' = pending tick ipc := by
  rw [pending, pending, h]

namespace Inv

variable {tick : Slot} {s : State} {ipc : Ipc Words}

theorem init (h : Init tick s) : Inv tick s where
  ipc := .init h.ipc
  exist := h.exist
  service := h.service
  plain q := by
    rw [h.ipc.pc q]
    exact plain_of_none rfl
  phase := by
    rw [AtPhase, h.pc]
    exact h.ipc.pc tick
  count := by
    rw [h.posted, h.ticks, h.pc, pending, if_pos h.hasIntrMsg]
    rfl
  reports r hr := by
    rw [h.reports] at hr
    cases hr

/-- A step of another task. -/
theorem other (h : Inv tick s) {c : IpcCall Words} (hguard : Apart tick s (.other c))
    (hforeign : Foreign tick s.ipc c = true) (hstep : ipcStep s.ipc c = some ipc) :
    Inv tick { s with ipc } := by
  obtain ⟨hchecked, hintr⟩ := foreign_frame hforeign hstep
  have hfixed := ipcStep_fixed hstep
  refine
    { ipc := h.ipc.step trivial hstep
      exist := by rw [hfixed.exist]; exact h.exist
      service := by rw [hfixed.service]; exact h.service
      plain := ipcStep_plain hstep ?_ h.plain
      phase := ?_
      count := by rw [pending_congr hintr]; exact h.count
      reports := h.reports }
  · rintro p dst msg rfl
    exact hguard
  · have hphase := h.phase
    unfold AtPhase at hphase ⊢
    dsimp only
    split at hphase
    · rw [hphase] at hchecked
      exact hchecked.user
    · rw [hintr]
      exact hchecked.receives hphase
    · rw [hphase.1] at hchecked
      exact ⟨hchecked.user, hphase.2⟩
    · exact hchecked.replies hphase

/-- A timer softirq posts one notification. -/
theorem timer (h : Inv tick s) (hguard : Apart tick s .timer) :
    Inv tick { s with ipc := s.ipc.informIntr tickService, posted := s.posted + 1 } := by
  obtain ⟨hclear, hpops⟩ := hguard
  have hreceiver : s.ipc.pidToTask ((s.ipc.service tickService).getD tickService) = some tick := by
    rw [h.service]
    exact Ipc.pidToTask_eq_some.mpr ⟨rfl, h.exist⟩
  have hinform : s.ipc.informIntr tickService =
      s.ipc.setTask tick { s.ipc.task tick with hasIntrMsg := 1 } := by
    rw [Ipc.informIntr, hreceiver]
  have hposted : ((s.ipc.informIntr tickService).task tick).hasIntrMsg = 1 := by
    rw [hinform, Ipc.setTask_task, if_pos rfl]
  have hpc : (s.ipc.informIntr tickService).pc = s.ipc.pc := by
    rw [hinform]
    rfl
  refine
    { ipc := h.ipc.step (a := .intr tickService) trivial rfl
      exist := by rw [(informIntr_fixed _ _).exist]; exact h.exist
      service := by rw [(informIntr_fixed _ _).service]; exact h.service
      plain := fun q => by rw [hpc]; exact h.plain q
      phase := ?_
      count := ?_
      reports := h.reports }
  · have hphase := h.phase
    unfold AtPhase at hphase ⊢
    dsimp only
    rw [hpc]
    split at hphase
    · exact hphase
    · rw [hposted]
      rw [hclear] at hphase
      unfold Receives at hphase ⊢
      split at hphase
      case h_9 hpop =>
        rw [hpop] at hpops
        cases hpops
      case h_7 | h_8 => exact absurd rfl hphase
      all_goals exact hphase
    · exact hphase
    · exact hphase
  · have hcount := h.count
    rw [pending, if_pos hclear, BitVec.add_zero] at hcount
    dsimp only
    rw [pending, hposted, if_neg (by decide), BitVec.ofNat_add, hcount]
    ac_rfl

/-- What a step inside of `msg_recv` leaves but for the place of the service and its count. -/
theorem of_run (h : Inv tick s) (hrun : s.ipc.run tick = some ipc) {t : State}
    (ht : t.ipc = ipc) (hreports : t.reports = s.reports) (hphase : AtPhase tick t)
    (hcount : BitVec.ofNat 64 t.posted = t.ticks + pending tick t.ipc + inHand t.pc) :
    Inv tick t := by
  have hfixed := run_fixed hrun
  have hstep : ipcStep s.ipc (.run tick) = some ipc := hrun
  refine
    { ipc := by rw [ht]; exact h.ipc.step trivial hstep
      exist := by rw [ht, hfixed.exist]; exact h.exist
      service := by rw [ht, hfixed.service]; exact h.service
      plain := by rw [ht]; exact ipcStep_plain hstep (by rintro _ _ _ ⟨⟩) h.plain
      phase := hphase
      count := hcount
      reports := by rw [hreports]; exact h.reports }

/-- A step inside of `msg_recv`. -/
theorem receive (h : Inv tick s) (hpc : s.pc = .receiving) (hrun : s.ipc.run tick = some ipc) :
    Inv tick (afterRecv tick s ipc) := by
  have hphase := h.phase
  rw [AtPhase, hpc] at hphase
  dsimp only at hphase
  have hcount := h.count
  rw [hpc, show inHand MainPc.receiving = 0#64 from rfl, BitVec.add_zero] at hcount
  -- A step that neither returns, nor takes out a sender, nor clears the flag.
  have hmove {pc : Pc Words} (hnext : ipc.pc tick = pc)
      (hresult : recvResult (s.ipc.pc tick) = none) (hpops : popsNext (s.ipc.pc tick) = false)
      (hpc' : Receives ((s.ipc.task tick).hasIntrMsg = 0) (Fresh s) pc) :
      Inv tick (afterRecv tick s ipc) := by
    have hintr := run_hasIntrMsg (q := tick) hrun
      (Or.inr fun src msg heq => by rw [heq] at hresult; cases hresult)
    refine h.of_run hrun rfl rfl ?_ ?_
    · simp only [AtPhase, afterRecv, hresult, Option.elim_none, Fresh, hpops, hnext, hintr]
      exact hpc'
    · simp only [afterRecv, hresult, Option.elim_none, inHand, BitVec.add_zero,
        pending_congr hintr]
      exact hcount
  have hself (u : Ipc Words) (pc : Pc Words) : (u.setPc tick pc).pc tick = pc := by
    rw [Ipc.setPc_pc, if_pos rfl]
  cases hcase : s.ipc.pc tick with
  | recvClear src msg =>
      rw [hcase] at hphase hmove
      simp only [Ipc.run, hcase] at hrun
      cases hrun
      exact hmove (hself _ _) rfl rfl hphase
  | recvCheck src msg =>
      rw [hcase] at hphase hmove
      have hsrc : src = recvFromAny := hphase
      simp only [Ipc.run, hcase, hsrc, ne_eq, not_true_eq_false, false_and, if_false] at hrun
      cases hrun
      exact hmove (hself _ _) rfl rfl rfl
  | recvSet src msg | recvBlock src msg =>
      rw [hcase] at hphase hmove
      simp only [Ipc.run, hcase] at hrun
      cases hrun
      exact hmove (hself _ _) rfl rfl hphase
  | recvSelect src msg =>
      rw [hcase] at hphase hmove
      have hsrc : src = recvFromAny := hphase
      simp only [Ipc.run, hcase, hsrc, true_or, if_true] at hrun
      split at hrun
      · next hintr =>
          cases hrun
          exact hmove (hself _ _) rfl rfl hintr
      · next hintr =>
          cases hrun
          exact hmove (hself _ _) rfl rfl (not_not.mp hintr)
  | recvIntrClear src msg =>
      rw [hcase] at hphase hmove
      simp only [Ipc.run, hcase] at hrun
      cases hrun
      exact hmove (hself _ _) rfl rfl hphase
  | recvIntrTake src msg =>
      rw [hcase] at hphase
      have hintr : (s.ipc.task tick).hasIntrMsg ≠ 0 := hphase
      rw [pending, if_neg hintr] at hcount
      have hnext : ipc.pc tick = .user ∧ (ipc.task tick).hasIntrMsg = 0 := by
        simp only [Ipc.run, hcase] at hrun
        cases hrun
        refine ⟨hself _ _, ?_⟩
        change ((s.ipc.setTask tick _).task tick).hasIntrMsg = 0
        rw [Ipc.setTask_task, if_pos rfl]
      have htype : (Ipc.intrMessage msg).type = recvFromIntType := rfl
      refine h.of_run hrun rfl rfl ?_ ?_
      · simp only [AtPhase, afterRecv, hcase, recvResult, Option.elim_some]
        exact ⟨hnext.1, fun hne => absurd htype hne⟩
      · simp only [afterRecv, hcase, recvResult, Option.elim_some, pending, if_pos hnext.2, inHand,
          if_pos htype, BitVec.add_zero]
        exact hcount
  | recvPop src =>
      rw [hcase] at hphase
      have hclear : (s.ipc.task tick).hasIntrMsg = 0 := hphase
      rw [pending, if_pos hclear, BitVec.add_zero] at hcount
      have hintr := run_hasIntrMsg (q := tick) hrun
        (Or.inr fun src msg heq => by rw [hcase] at heq; cases heq)
      have hnext : ∃ sender, ipc.pc tick = .recvCopy src sender := by
        simp only [Ipc.run, hcase] at hrun
        split at hrun <;> cases hrun
        exact ⟨_, hself _ _⟩
      obtain ⟨sender, hnext⟩ := hnext
      refine h.of_run hrun rfl rfl ?_ ?_
      · simp only [AtPhase, afterRecv, hcase, recvResult, Option.elim_none, hnext]
        exact hcount
      · simp only [afterRecv, hcase, recvResult, Option.elim_none, pending, hintr,
          if_pos hclear, inHand, BitVec.add_zero]
        exact hcount
  | recvCopy src sender =>
      rw [hcase] at hphase hmove
      obtain ⟨contents, place, hinv⟩ := ipcSystem_inv h.ipc
      have htype := h.plain sender _ _ (outgoing_of_held hinv hcase) rfl
      simp only [Ipc.run, hcase] at hrun
      cases hrun
      exact hmove (hself _ _) rfl rfl ⟨hphase, htype⟩
  | recvRelease src sender msg | recvInform src sender msg =>
      rw [hcase] at hphase hmove
      simp only [Ipc.run, hcase] at hrun
      cases hrun
      exact hmove (hself _ _) rfl rfl hphase
  | recvCount src sender msg =>
      rw [hcase] at hphase
      obtain ⟨hfresh, htype⟩ := hphase
      have hintr := run_hasIntrMsg (q := tick) hrun
        (Or.inr fun src msg heq => by rw [hcase] at heq; cases heq)
      have hnext : ipc.pc tick = .user := by
        simp only [Ipc.run, hcase] at hrun
        cases hrun
        exact hself _ _
      refine h.of_run hrun rfl rfl ?_ ?_
      · simp only [AtPhase, afterRecv, hcase, recvResult, Option.elim_some]
        exact ⟨hnext, fun _ => hfresh⟩
      · simp only [afterRecv, hcase, recvResult, Option.elim_some, inHand, if_neg htype,
          BitVec.add_zero, pending_congr hintr]
        exact hcount
  | receiving => simp [Ipc.run, hcase] at hrun
  | _ =>
      rw [hcase] at hphase
      exact hphase.elim

/-- A step inside of `msg_send`. -/
theorem send (h : Inv tick s) (hpc : s.pc = .replying) (hrun : s.ipc.run tick = some ipc) :
    Inv tick (afterSend tick s ipc) := by
  have hphase := h.phase
  rw [AtPhase, hpc] at hphase
  dsimp only at hphase
  have hcount := h.count
  rw [hpc, show inHand MainPc.replying = 0#64 from rfl, BitVec.add_zero] at hcount
  have hintr := run_hasIntrMsg (q := tick) hrun
    (Or.inr fun src msg heq => by rw [heq] at hphase; exact hphase)
  have hcount' (pc : MainPc) (hhand : inHand pc = 0#64) :
      BitVec.ofNat 64 s.posted = s.ticks + pending tick ipc + inHand pc := by
    rw [hhand, BitVec.add_zero, pending_congr hintr]
    exact hcount
  rcases run_replies hrun hphase with huser | hreplies
  · refine h.of_run hrun rfl rfl ?_ ?_
    · simp only [AtPhase, afterSend, huser]
    · simp only [afterSend, huser]
      exact hcount' _ rfl
  · have hstays : (afterSend tick s ipc).pc = .replying := by
      unfold afterSend
      dsimp only
      split
      · next heq =>
          rw [heq] at hreplies
          exact hreplies.elim
      · rfl
    refine h.of_run hrun rfl rfl ?_ ?_
    · simp only [AtPhase, hstays]
      exact hreplies
    · rw [hstays]
      exact hcount' _ rfl

/-- A call of the service. -/
theorem call (h : Inv tick s) {c : IpcCall Words} {pc : Pc Words}
    (hstep : ipcStep s.ipc c = some (s.ipc.setPc tick pc))
    (hsend : ∀ p dst msg, c = .send p dst msg → dst = pidOf tick → msg.type ≠ recvFromIntType)
    {t : State} (ht : t.ipc = s.ipc.setPc tick pc) (hphase : AtPhase tick t)
    (hcount : BitVec.ofNat 64 t.posted = t.ticks + pending tick s.ipc + inHand t.pc)
    (hreports : ∀ r ∈ t.reports, r.1 = BitVec.ofNat 64 r.2) : Inv tick t where
  ipc := by rw [ht]; exact h.ipc.step trivial hstep
  exist := by rw [ht]; exact h.exist
  service := by rw [ht]; exact h.service
  plain := by rw [ht]; exact ipcStep_plain hstep hsend h.plain
  phase := hphase
  count := by
    rw [ht]
    exact hcount
  reports := hreports

/-- A step of the service. -/
theorem serve (h : Inv tick s) {t : State} (hstep : serve tick s = some t) : Inv tick t := by
  have hphase := h.phase
  have hcount := h.count
  unfold Tick.serve at hstep
  cases hpc : s.pc with
  | top =>
      rw [AtPhase, hpc] at hphase
      dsimp only at hphase
      rw [hpc] at hcount
      have hcall : ipcStep s.ipc (.recv tick recvFromAny zeroMessage) =
          some (s.ipc.setPc tick (.recvClear recvFromAny zeroMessage)) := by
        simp only [ipcStep, h.exist, hphase]
      rw [hpc] at hstep
      dsimp only at hstep
      rw [hcall] at hstep
      cases hstep
      refine h.call hcall (by rintro _ _ _ ⟨⟩) rfl ?_ hcount h.reports
      simp only [AtPhase, Ipc.setPc_pc, if_true]
      rfl
  | receiving =>
      rw [hpc] at hstep
      obtain ⟨ipc, hrun, rfl⟩ := Option.map_eq_some_iff.mp hstep
      exact h.receive hpc hrun
  | replying =>
      rw [hpc] at hstep
      obtain ⟨ipc, hrun, rfl⟩ := Option.map_eq_some_iff.mp hstep
      exact h.send hpc hrun
  | handle msg =>
      rw [AtPhase, hpc] at hphase
      obtain ⟨huser, hfresh⟩ := hphase
      rw [hpc] at hstep hcount
      dsimp only at hstep
      split at hstep
      · next htype =>
          cases hstep
          rw [inHand, if_pos htype] at hcount
          refine ⟨h.ipc, h.exist, h.service, h.plain, huser, ?_, h.reports⟩
          change BitVec.ofNat 64 s.posted = s.ticks + 1#64 + pending tick s.ipc + 0#64
          rw [BitVec.add_zero, hcount]
          ac_rfl
      · next htype =>
          rw [inHand, if_neg htype] at hcount
          have hfresh := hfresh htype
          split at hstep
          · next hrequest =>
              have hcall : ipcStep s.ipc (.send tick msg.src (reply msg s.ticks)) =
                  some (s.ipc.setPc tick (.sendClear msg.src (reply msg s.ticks))) := by
                simp only [ipcStep, h.exist, huser]
              rw [hcall] at hstep
              cases hstep
              refine h.call hcall ?_ rfl ?_ hcount fun r hr => ?_
              · rintro p dst msg' ⟨⟩ -
                exact htype
              · simp only [AtPhase, Ipc.setPc_pc, if_true]
                trivial
              · rcases List.mem_append.mp hr with hold | hnew
                · exact h.reports r hold
                · rw [List.mem_singleton.mp hnew]
                  exact hfresh.symm
          · cases hstep
            exact ⟨h.ipc, h.exist, h.service, h.plain, huser, hcount, h.reports⟩

/-- Every step that finds things apart keeps the invariant. -/
theorem step (h : Inv tick s) {e : Event} (hguard : Apart tick s e) {t : State}
    (hstep : step tick s e = some t) : Inv tick t := by
  cases e with
  | timer =>
      cases hstep
      exact h.timer hguard
  | serve => exact h.serve hstep
  | other c =>
      simp only [Tick.step] at hstep
      split at hstep
      · next hforeign =>
          obtain ⟨ipc, hipc, rfl⟩ := Option.map_eq_some_iff.mp hstep
          exact h.other hguard hforeign hipc
      · cases hstep

end Inv

/-- In a run whose timer softirqs find no notification pending and the service not about to take a
request out of its list, and in which no message to the service has the type of a notification,
every count the service reports is the number of timer softirqs that had posted their notification
when it took the request. -/
theorem reports_of_reachable {tick : Slot} {s : State}
    (hreach : (system tick).ReachableWhen (Apart tick) s) :
    ∀ r ∈ s.reports, r.1 = BitVec.ofNat 64 r.2 :=
  (hreach.invariant (P := Inv tick) (fun _ => Inv.init)
    fun _ _ _ hinv hguard hstep => hinv.step hguard hstep).reports

/-! ## Runs -/

instance (tick : Slot) (s : State) (e : Event) : Decidable (Apart tick s e) :=
  match e with
  | .timer => inferInstanceAs (Decidable (_ ∧ _))
  | .serve => isTrue trivial
  | .other c =>
      match c with
      | .send _ dst msg =>
          inferInstanceAs (Decidable (dst = pidOf tick → msg.type ≠ recvFromIntType))
      | .recv _ _ _ | .wait _ | .resume _ | .run _ | .intr _ | .check _ => isTrue trivial

/-- The service, just started in slot 0, and a client in slot 1. -/
def boot : State where
  ipc :=
    { exist := fun p => p ∈ ([0, 1] : List Slot)
      service := fun id => if id = tickService then some 0 else none
      task := fun _ => ⟨zeroMessage, pidNoTask, pidNoTask, 0, 0, 0⟩
      record := fun _ => ⟨[], [], 0, []⟩
      links := ([0, 1] : List Slot).foldr (fun l k => Heap.initList k l)
        ⟨fun _ => none, fun _ => none⟩
      pc := fun _ => .user
      check := fun _ => .idle }
  pc := .top
  ticks := 0
  posted := 0
  postedAtReceive := 0
  reports := []

theorem boot_init : Init 0 boot where
  ipc :=
    { lists := (Heap.Holds.initLists Slot [0, 1] (by decide)).congr_used fun l => by
        simp [boot]
      pc := fun _ => rfl
      check := fun _ => rfl
      sendFlag := fun _ => rfl
      recvFlag := fun _ => rfl
      record := fun _ => rfl }
  exist := by decide
  service := rfl
  hasIntrMsg := rfl
  pc := rfl
  ticks := rfl
  posted := rfl
  reports := rfl

/-- The service calls `msg_recv` and is blocked in it. -/
def blocks : List Event := List.replicate 5 .serve

/-- The service is woken for a notification, receives it and counts it. -/
def counts : List Event := List.replicate 4 (.other (.check 0)) ++ List.replicate 4 .serve

/-- The client sends a message of a type to the service. -/
def sends (type : BitVec 32) : List Event :=
  .other (.send 1 0 ⟨0, type, fun _ => 0⟩) :: List.replicate 6 (.other (.run 1))

/-- The client is woken and leaves `msg_send`. -/
def wakesSender : List Event := List.replicate 2 (.other (.check 1)) ++ [.other (.run 1)]

/-- The service is woken for a message, receives it and does what it asks for. -/
def answers : List Event := List.replicate 5 (.other (.check 0)) ++ List.replicate 7 .serve

/-- One timer softirq, and then a request. -/
def oneTick : List Event :=
  [.timer] ++ blocks ++ counts ++ blocks ++ sends tickGetTicks ++ answers

/-- Two timer softirqs before the service receives, and then a request. -/
def twoTicks : List Event :=
  [.timer, .timer] ++ blocks ++ counts ++ blocks ++ sends tickGetTicks ++ answers

/-- No timer softirq, a message with the type of a notification, and then a request. -/
def noTick : List Event :=
  blocks ++ sends recvFromIntType ++ answers ++ blocks ++ wakesSender ++ sends tickGetTicks ++
    answers

/-- A request, and a timer softirq when the service is about to take it out of its list. -/
def lateTick : List Event :=
  blocks ++ sends tickGetTicks ++ List.replicate 5 (.other (.check 0)) ++ [.serve, .timer] ++
    List.replicate 6 .serve

/-- One timer softirq, received before the request comes. -/
theorem reports_of_reachable_oneTick : ∃ s : State, s.reports = [(1#64, 1)] ∧
    ∀ r ∈ s.reports, r.1 = BitVec.ofNat 64 r.2 := by
  have hboot : (system 0).ReachableWhen (Apart 0) boot := .init boot_init
  have hrun : (System.runWhen (fun s e => decide (Apart 0 s e)) (step 0) boot oneTick).map
      (·.reports) = some [(1#64, 1)] := by decide +kernel
  obtain ⟨s, hreach, hreports⟩ := hboot.exists_run (fun _ _ _ hstep => hstep) hrun
  exact ⟨s, hreports, reports_of_reachable hreach⟩

/-- Two notifications before a receive are counted as one; a message of a client with the type of a
notification is counted; and a notification that comes when the service is about to take the
request out of its list is not. -/
theorem not_reports :
    (∃ s, (system 0).Reachable s ∧ s.reports = [(1#64, 2)]) ∧
      (∃ s, (system 0).Reachable s ∧ s.reports = [(1#64, 0)]) ∧
      ∃ s, (system 0).Reachable s ∧ s.reports = [(0#64, 1)] := by
  have hreports {events : List Event} {reports : List (BitVec 64 × Nat)}
      (hrun : (System.runWhen (fun _ _ => true) (step 0) boot events).map (·.reports) =
        some reports) :
      ∃ s, (system 0).Reachable s ∧ s.reports = reports :=
    System.Reachable.exists_run (fun _ _ _ hstep => hstep) (.init boot_init) hrun
  have htwo : (System.runWhen (fun _ _ => true) (step 0) boot twoTicks).map (·.reports) =
      some [(1#64, 2)] := by
    decide +kernel
  have hno : (System.runWhen (fun _ _ => true) (step 0) boot noTick).map (·.reports) =
      some [(1#64, 0)] := by
    decide +kernel
  have hlate : (System.runWhen (fun _ _ => true) (step 0) boot lateTick).map (·.reports) =
      some [(0#64, 1)] := by
    decide +kernel
  exact ⟨hreports htwo, hreports hno, hreports hlate⟩

end Tick

end ClayFigure
