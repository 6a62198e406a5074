/-
# Messages between tasks

`msg_send`, `msg_recv`, `inform_intr` and the check the scheduler makes before it
wakes a blocked task, cut at every access to a variable that other tasks can see.
What a task has done so far is its program counter together with the locals of the
call; the check of a blocked task has a program counter of its own, because other
CPUs go on while it is made. The sender lists are the pointer lists of `list.c`.

Each task also carries a record of what its calls have promised and delivered.
The code does not read it.
-/

import ClayFigure.Kernel.Global
import ClayFigure.Lib.List
import ClayFigure.Math.Transition

namespace ClayFigure

open ClayFigure.Math

/-- `RECV_FROM_INT`. -/
abbrev recvFromInt : Int := -2

/-- `RECV_FROM_ANY`. -/
abbrev recvFromAny : Int := -3

/-- `MIN_PID`. -/
abbrev minPid : Int := 0

/-- `MAX_PID`. -/
abbrev maxPid : Int := numTasks - 1

/-- The pid of the task in a slot. -/
abbrev pidOf (p : Slot) : Int := (p : Nat)

/-- `message_t`; `m` is its array of eight words. -/
structure Message (β : Type) where
  src : Int
  type : BitVec 32
  m : β
  deriving DecidableEq, Repr

/-- The fields of `task_struct_t` that carry messages. -/
structure IpcTask (β : Type) where
  msg : Message β
  sendTo : Int
  recvFrom : Int
  sendFlag : BitVec 64
  recvFlag : BitVec 64
  hasIntrMsg : BitVec 32

/-- What the calls of a task have done: the messages `msg_send` accepted from it with
their destinations, the copies receivers made of them with the receivers, how
often `msg_send` has returned success, and what `msg_recv` has returned for which
source. -/
structure IpcRecord (β : Type) where
  accepted : List (Int × Message β)
  copied : List (Int × Message β)
  succeeded : Nat
  received : List (Int × Message β)

/-- Where a task is, with the arguments and locals of its call. Each name says what
comes next; in `sending`, `receiving` and `waiting` the task is blocked. -/
inductive Pc (β : Type)
  | user
  | waiting
  | sendClear (dst : Int) (msg : Message β)
  | sendCheck (dst : Int) (msg : Message β)
  | sendFill (dst : Int) (msg : Message β)
  | sendAppend (dst : Int) (msg : Message β)
  | sendCount (dst : Int) (msg : Message β)
  | sendBlock (dst : Int) (msg : Message β)
  | sending (dst : Int) (msg : Message β)
  | sendReturn
  | recvClear (src : Int) (msg : Message β)
  | recvCheck (src : Int) (msg : Message β)
  | recvSet (src : Int) (msg : Message β)
  | recvBlock (src : Int) (msg : Message β)
  | receiving (src : Int) (msg : Message β)
  | recvSelect (src : Int) (msg : Message β)
  | recvIntrClear (src : Int) (msg : Message β)
  | recvIntrTake (src : Int) (msg : Message β)
  | recvPop (src : Int)
  | recvRemove (src : Int)
  | recvCopy (src : Int) (sender : Slot)
  | recvRelease (src : Int) (sender : Slot) (msg : Message β)
  | recvInform (src : Int) (sender : Slot) (msg : Message β)
  | recvCount (src : Int) (sender : Slot) (msg : Message β)

/-- Where the wake-up check of a blocked task is; each name says what comes next. -/
inductive CheckPc
  | idle
  | readIntr
  | readList
  | readFrom
  | readIntrAgain
  | findSender (sender : Int)
  | clearFlag
  | readSendFlag
  deriving DecidableEq

/-- All tasks. The list of a slot is its `sender_list`, the member of a slot its
`send_tag`; no task is created or exits. -/
structure Ipc (β : Type) where
  exist : Slot → Bool
  service : Int → Option Int
  task : Slot → IpcTask β
  record : Slot → IpcRecord β
  links : Heap Slot Slot
  pc : Slot → Pc β
  check : Slot → CheckPc

variable {β : Type}

namespace Ipc

/-- `pid_to_task`, with the range check and `task_exist`. -/
def pidToTask (s : Ipc β) (pid : Int) : Option Slot :=
  if h : minPid ≤ pid ∧ pid ≤ maxPid then
    let i : Slot := ⟨pid.toNat, by unfold minPid maxPid at h; omega⟩
    if s.exist i then some i else none
  else none

def setTask (s : Ipc β) (p : Slot) (t : IpcTask β) : Ipc β :=
  { s with task := Function.update s.task p t }

def setRecord (s : Ipc β) (p : Slot) (r : IpcRecord β) : Ipc β :=
  { s with record := Function.update s.record p r }

def setPc (s : Ipc β) (p : Slot) (pc : Pc β) : Ipc β :=
  { s with pc := Function.update s.pc p pc }

def setCheck (s : Ipc β) (p : Slot) (c : CheckPc) : Ipc β :=
  { s with check := Function.update s.check p c }

def setLinks (s : Ipc β) (k : Heap Slot Slot) : Ipc β := { s with links := k }

/-- The message as `msg_send` passes it on. -/
def stamp (p : Slot) (msg : Message β) : Message β := { msg with src := pidOf p }

/-- The message `msg_recv` makes of an interrupt. -/
def intrMessage (msg : Message β) : Message β :=
  { msg with src := recvFromInt, type := BitVec.ofInt 32 recvFromInt }

/-- `inform_intr`. -/
def informIntr (s : Ipc β) (dst : Int) : Ipc β :=
  match s.pidToTask ((s.service dst).getD dst) with
  | none => s
  | some receiver => s.setTask receiver { s.task receiver with hasIntrMsg := 1 }

/-- `msg_send` returns `SYSCALL_SUCCESS`. -/
def sendReturns (s : Ipc β) (p : Slot) : Ipc β :=
  (s.setRecord p { s.record p with succeeded := (s.record p).succeeded + 1 }).setPc p .user

/-- `msg_recv` returns `SYSCALL_SUCCESS`. -/
def recvReturns (s : Ipc β) (p : Slot) (src : Int) (msg : Message β) : Ipc β :=
  (s.setRecord p { s.record p with
    received := (s.record p).received ++ [(src, msg)] }).setPc p .user

/-- The next step of task `p` inside `msg_send` or `msg_recv`; `none` when the task is
not inside either, is blocked, or dereferences a null pointer. -/
def run (s : Ipc β) (p : Slot) : Option (Ipc β) :=
  match s.pc p with
  | .user => none
  | .waiting => none
  | .sendClear dst msg =>
      some ((s.setTask p { s.task p with sendTo := pidNoTask }).setPc p (.sendCheck dst msg))
  | .sendCheck dst msg =>
      if (s.pidToTask dst).isSome then
        some (((s.setTask p { s.task p with sendTo := dst }).setRecord p
          { s.record p with accepted := (s.record p).accepted ++ [(dst, stamp p msg)] }).setPc p
          (.sendFill dst (stamp p msg)))
      else some (s.setPc p .user)
  | .sendFill dst msg =>
      some ((s.setTask p { s.task p with msg := msg }).setPc p (.sendAppend dst msg))
  | .sendAppend dst msg => do
      let receiver ← s.pidToTask (s.task p).sendTo
      let k ← s.links.listAppend receiver (.elem p)
      return (s.setLinks k).setPc p (.sendCount dst msg)
  | .sendCount dst msg =>
      some ((s.setTask p { s.task p with sendFlag := (s.task p).sendFlag + 1 }).setPc p
        (.sendBlock dst msg))
  | .sendBlock dst msg => some (s.setPc p (.sending dst msg))
  | .sending _ _ => none
  | .sendReturn => some (s.sendReturns p)
  | .recvClear src msg =>
      some ((s.setTask p { s.task p with recvFrom := pidNoTask }).setPc p (.recvCheck src msg))
  | .recvCheck src msg =>
      if src ≠ recvFromAny ∧ src ≠ recvFromInt ∧ (s.pidToTask src).isNone then
        some (s.setPc p .user)
      else some ((s.setTask p { s.task p with recvFrom := src }).setPc p (.recvSet src msg))
  | .recvSet src msg =>
      some ((s.setTask p { s.task p with recvFlag := 1 }).setPc p (.recvBlock src msg))
  | .recvBlock src msg => some (s.setPc p (.receiving src msg))
  | .receiving _ _ => none
  | .recvSelect src msg =>
      if src = recvFromAny ∨ src = recvFromInt then
        if (s.task p).hasIntrMsg ≠ 0 then some (s.setPc p (.recvIntrClear src msg))
        else some (s.setPc p (.recvPop src))
      else some (s.setPc p (.recvRemove src))
  | .recvIntrClear src msg =>
      some ((s.setTask p { s.task p with recvFrom := pidNoTask }).setPc p (.recvIntrTake src msg))
  | .recvIntrTake src msg =>
      some ((s.setTask p { s.task p with hasIntrMsg := 0 }).recvReturns p src (intrMessage msg))
  | .recvPop src =>
      match s.links.listPop p with
      | some (.elem sender, k) => some ((s.setLinks k).setPc p (.recvCopy src sender))
      | _ => none
  | .recvRemove src => do
      let sender ← s.pidToTask src
      let k ← s.links.listRemove (.elem sender)
      return (s.setLinks k).setPc p (.recvCopy src sender)
  | .recvCopy src sender =>
      let msg := (s.task sender).msg
      some ((s.setRecord sender { s.record sender with
        copied := (s.record sender).copied ++ [(pidOf p, msg)] }).setPc p
        (.recvRelease src sender msg))
  | .recvRelease src sender msg =>
      some ((s.setTask p { s.task p with recvFrom := pidNoTask }).setPc p
        (.recvInform src sender msg))
  | .recvInform src sender msg =>
      some ((s.setTask sender { s.task sender with sendTo := pidNoTask }).setPc p
        (.recvCount src sender msg))
  | .recvCount src sender msg =>
      some ((s.setTask sender { s.task sender with
        sendFlag := (s.task sender).sendFlag - 1 }).recvReturns p src msg)

/-- `task_ipc_check` returns `TRUE`: `check_waiting_list` unblocks a task that sends or
receives. -/
def wake (s : Ipc β) (p : Slot) : Ipc β :=
  match s.pc p with
  | .sending _ _ => (s.setCheck p .idle).setPc p .sendReturn
  | .receiving src msg => (s.setCheck p .idle).setPc p (.recvSelect src msg)
  | _ => s.setCheck p .idle

/-- The task is in `waiting_list`. -/
def Blocked (s : Ipc β) (p : Slot) : Bool :=
  match s.pc p with
  | .waiting => true
  | .sending _ _ => true
  | .receiving _ _ => true
  | _ => false

/-- The next step of `task_ipc_check` for the blocked task `p`. -/
def ipcCheck (s : Ipc β) (p : Slot) : Option (Ipc β) :=
  if ¬ s.Blocked p then none
  else
    match s.check p with
    | .idle =>
        if (s.task p).recvFlag = 1 then some (s.setCheck p .readIntr)
        else some (s.setCheck p .readSendFlag)
    | .readIntr =>
        if (s.task p).hasIntrMsg ≠ 0 then some (s.setCheck p .readFrom)
        else some (s.setCheck p .readList)
    | .readList =>
        if s.links.listEmpty p then some (s.setCheck p .idle)
        else some (s.setCheck p .readFrom)
    | .readFrom =>
        let recvFrom := (s.task p).recvFrom
        if recvFrom = recvFromInt then some (s.setCheck p .readIntrAgain)
        else if minPid ≤ recvFrom ∧ recvFrom ≤ maxPid then
          some (s.setCheck p (.findSender recvFrom))
        else some (s.setCheck p .clearFlag)
    | .readIntrAgain =>
        if (s.task p).hasIntrMsg = 0 then some (s.setCheck p .idle)
        else some (s.setCheck p .clearFlag)
    | .findSender sender => do
        let sender ← s.pidToTask sender
        let found ← s.links.listFind p (.elem sender) (numTasks + 1)
        return if found then s.setCheck p .clearFlag else s.setCheck p .idle
    | .clearFlag => some ((s.setTask p { s.task p with recvFlag := 0 }).wake p)
    | .readSendFlag =>
        if 0 < (s.task p).sendFlag.toInt then some (s.setCheck p .idle) else some (s.wake p)

end Ipc

/-! ## Interleavings -/

/-- One step of one task, of an interrupt, or of a scheduler. -/
inductive IpcCall (β : Type)
  | send (p : Slot) (dst : Int) (msg : Message β)
  | recv (p : Slot) (src : Int) (msg : Message β)
  | wait (p : Slot)
  | resume (p : Slot)
  | run (p : Slot)
  | intr (dst : Int)
  | check (p : Slot)

/-- A task outside the calls may start one or wait for a child; a wait ends when no
check is being made. -/
def ipcStep (s : Ipc β) : IpcCall β → Option (Ipc β)
  | .send p dst msg =>
      match s.exist p, s.pc p with
      | true, .user => some (s.setPc p (.sendClear dst msg))
      | _, _ => none
  | .recv p src msg =>
      match s.exist p, s.pc p with
      | true, .user => some (s.setPc p (.recvClear src msg))
      | _, _ => none
  | .wait p =>
      match s.exist p, s.pc p with
      | true, .user => some (s.setPc p .waiting)
      | _, _ => none
  | .resume p =>
      match s.pc p, s.check p with
      | .waiting, .idle => some (s.setPc p .user)
      | _, _ => none
  | .run p => s.run p
  | .intr dst => some (s.informIntr dst)
  | .check p => s.ipcCheck p

/-- Tasks as `init_task_struct` leaves them, outside all calls. -/
structure IpcInit (s : Ipc β) : Prop where
  lists : s.links.Holds (s.exist · = true) fun _ => []
  pc : ∀ p, s.pc p = .user
  check : ∀ p, s.check p = .idle
  sendFlag : ∀ p, (s.task p).sendFlag = 0
  recvFlag : ∀ p, (s.task p).recvFlag = 0
  record : ∀ p, s.record p = ⟨[], [], 0, []⟩

/-- All interleavings. -/
def ipcSystem (β : Type) : System (Ipc β) (IpcCall β) where
  init := IpcInit
  step s c t := ipcStep s c = some t

end ClayFigure
