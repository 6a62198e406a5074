/-
# The scheduler of one CPU

`task/schedule.c`: the ready tasks of a CPU are in `task_list`, ordered by
`vrun_time`, tasks that wait for a message or a child are in `waiting_list`, and a
task that has died is in the `exited_child_list` of its parent. All of these lists
link the one node `general_tag` of a task. The weight of a priority is a given
function, and what `task_ipc_check` answers for a task is an input of `schedule`:
it depends on the message fields, which other tasks and interrupts change.
-/

import ClayFigure.Kernel.Global
import ClayFigure.Lib.List
import ClayFigure.Math.Transition

namespace ClayFigure

open ClayFigure.Math

/-- `task_status_t`. -/
inductive TaskStatus
  | ready
  | running
  | blocked
  | sending
  | receiving
  | waiting
  | died
  deriving DecidableEq, Repr

/-- `DEFAULT_PRIORITY`. -/
abbrev defaultPriority : Nat := 20

/-- `IDLE_PRIORITY`. -/
abbrev idlePriority : Nat := 40

/-- The fields of `task_struct_t` the scheduler uses; `exist` is that the slot has a pid. -/
structure SchedTask where
  exist : Bool
  ppid : Nat
  status : TaskStatus
  preemptCount : Nat
  priority : Nat
  runTime : Nat
  vrunTime : Nat

/-- The lists that link `general_tag`. -/
inductive SchedList
  | taskList
  | waitingList
  | exitedChildList (p : Slot)
  deriving DecidableEq

/-- The tasks and `task_man_t` of a CPU, and the task it runs. -/
structure Sched where
  tasks : Slot → SchedTask
  links : Heap SchedList Slot
  minVrunTime : Nat
  runningTasks : Nat
  totalWeight : Nat
  idleTask : Slot
  runningTask : Slot

/-- `(int64_t)(a - b) < 0`. -/
def isBefore (a b : Nat) : Bool := 0x8000000000000000 ≤ sub64 a b

/-- `MAX_VRUNTIME`. -/
def maxVruntime (a b : Nat) : Nat := if 0 < sub64 a b ∧ ¬ isBefore a b then a else b

/-- Unsigned 64-bit multiplication. -/
def mul64 (a b : Nat) : Nat := a * b % wordSize

namespace Sched

def setTask (s : Sched) (p : Slot) (task : SchedTask) : Sched :=
  { s with tasks := Function.update s.tasks p task }

def setStatus (s : Sched) (p : Slot) (status : TaskStatus) : Sched :=
  s.setTask p { s.tasks p with status := status }

def setLinks (s : Sched) (k : Heap SchedList Slot) : Sched := { s with links := k }

/-- `pid_to_task`; a pid of the model is never negative. -/
def pidToTask (s : Sched) (pid : Nat) : Option Slot :=
  if h : pid < numTasks then
    if (s.tasks ⟨pid, h⟩).exist then some ⟨pid, h⟩ else none
  else none

section Weight

variable (weight : Nat → Nat)

/-- `task_update`, for the running task; `none` is a division by zero. -/
def taskUpdate (s : Sched) : Option Sched :=
  let task := s.tasks s.runningTask
  let runTime := add64 task.runTime 1
  let nice0Weight := weight defaultPriority
  let curWeight := weight task.priority
  if curWeight = 0 ∨ nice0Weight = 0 then none
  else
    let vrunTime := mul64 runTime nice0Weight / curWeight
    let maxTime := maxVruntime vrunTime s.minVrunTime
    let runTime := if maxTime ≠ vrunTime then mul64 maxTime curWeight / nice0Weight else runTime
    some { s.setTask s.runningTask { task with runTime := runTime, vrunTime := maxTime } with
      minVrunTime := maxVruntime s.minVrunTime maxTime }

/-- The loop of `task_list_insert` from `node` on: the node to insert before. -/
def findPlace (s : Sched) (task : Slot) : Nat → Node SchedList Slot →
    Option (Node SchedList Slot)
  | 0, _ => none
  | fuel + 1, node =>
      if node = .tail .taskList then some node
      else
        match node with
        | .elem tmp =>
            if isBefore (s.tasks task).vrunTime (s.tasks tmp).vrunTime then some node
            else do findPlace s task fuel (← s.links.next node)
        | _ => none

/-- `task_list_insert`. -/
def taskListInsert (s : Sched) (task : Slot) : Option Sched := do
  if ← s.links.listFind .taskList (.elem task) (numTasks + 1) then return s
  let node ← s.findPlace task (numTasks + 1) (← s.links.next (.head .taskList))
  let k ← s.links.listIn (.elem task) node
  return { (s.setLinks k).setStatus task .ready with
    runningTasks := add64 s.runningTasks 1
    totalWeight := add64 s.totalWeight (weight (s.tasks task).priority) }

/-- `task_unblock_sub`. -/
def taskUnblockSub (s : Sched) (pid : Slot) : Option Sched := do
  let task ← s.pidToTask pid
  s.taskListInsert weight task

/-- `task_unblock`; the locks and the interrupt flag are left out. -/
def taskUnblock (s : Sched) (pid : Slot) : Option Sched := s.taskUnblockSub weight pid

/-- `task_has_exited_child`. -/
def taskHasExitedChild (s : Sched) (pid : Slot) : Bool :=
  ! s.links.listEmpty (.exitedChildList pid)

/-- `inform_exit`. -/
def informExit (s : Sched) (exitedTask : Slot) : Option Sched := do
  let parent ← s.pidToTask (s.tasks exitedTask).ppid
  let k ← s.links.listAppend (.exitedChildList parent) (.elem exitedTask)
  return s.setLinks k

/-- The body of the loop of `check_waiting_list`, for one task. -/
def checkTask (taskIpcCheck : Slot → Bool) (s : Sched) (task : Slot) : Option Sched :=
  let stat := (s.tasks task).status
  let ipcCheck := taskIpcCheck task
  let hasExitedChild := s.taskHasExitedChild task
  if (stat = .sending ∨ stat = .receiving) ∧ ¬ ipcCheck then some s
  else if (s.tasks task).status = .waiting ∧ ¬ hasExitedChild then some s
  else do
    let k ← s.links.listRemove (.elem task)
    (s.setLinks k).taskUnblock weight task

/-- The loop of `check_waiting_list`, entered with `node_next = node`. -/
def checkFrom (taskIpcCheck : Slot → Bool) (s : Sched) : Nat → Node SchedList Slot →
    Option Sched
  | 0, _ => none
  | fuel + 1, node => do
      let nodeNext ← s.links.next node
      match node with
      | .elem task =>
          let s ← s.checkTask weight taskIpcCheck task
          if nodeNext = .tail .waitingList then return s
          else checkFrom taskIpcCheck s fuel nodeNext
      | _ => none

/-- `check_waiting_list`. -/
def checkWaitingList (taskIpcCheck : Slot → Bool) (s : Sched) : Option Sched :=
  if s.links.listEmpty .waitingList then some s
  else do
    let nodeNext ← s.links.next (.head .waitingList)
    s.checkFrom weight taskIpcCheck (numTasks + 1) nodeNext

/-- `get_next_task`. -/
def getNextTask (s : Sched) : Option (Slot × Sched) := do
  let (node, s) ←
    if ¬ s.links.listEmpty .taskList then do
      let (node, k) ← s.links.listPop .taskList
      pure (node, s.setLinks k)
    else do
      let s ← s.taskUnblockSub weight s.idleTask
      let node := Node.elem s.idleTask
      let k ← s.links.listRemove node
      pure (node, s.setLinks k)
  match node with
  | .elem next => return (next, { s with
      runningTasks := sub64 s.runningTasks 1
      totalWeight := sub64 s.totalWeight (weight (s.tasks next).priority) })
  | _ => none

/-- The `switch` of `schedule` on the status of the running task. -/
def putAway (s : Sched) : Option Sched :=
  let curTask := s.runningTask
  match (s.tasks curTask).status with
  | .running => s.taskListInsert weight curTask
  | .sending | .receiving | .waiting => do
      let k ← s.links.listAppend .waitingList (.elem curTask)
      return s.setLinks k
  | .died => s.informExit curTask
  | _ => some s

/-- `schedule` up to the choice of the next task. -/
def readyUp (taskIpcCheck : Slot → Bool) (s : Sched) : Option Sched := do
  (← s.putAway weight).checkWaitingList weight taskIpcCheck

/-- `schedule`. -/
def schedule (taskIpcCheck : Slot → Bool) (s : Sched) : Option Sched :=
  if 0 < (s.tasks s.runningTask).preemptCount then some s
  else do
    let s ← s.readyUp weight taskIpcCheck
    let (next, s) ← s.getNextTask weight
    return { s.setStatus next .running with runningTask := next }

/-- `task_alloc` and `init_task_struct` of the first free slot: a child of the running
task. -/
def initTask (s : Sched) (priority : Nat) : Option (Slot × Sched) := do
  let i ← (List.finRange numTasks).find? fun i => ! (s.tasks i).exist
  let cleared := (s.links.clear (.exitedChildList i) i).clear (.exitedChildList i) i
  return (i, (s.setLinks (cleared.initList (.exitedChildList i))).setTask i
    ⟨true, s.runningTask, .ready, 0, priority, 0, 0⟩)

/-- `task_start` or `proc_execute`, when all allocations succeed. -/
def createTask (s : Sched) (priority : Nat) : Option Sched := do
  let (task, s) ← s.initTask priority
  s.taskListInsert weight task

/-- The calls of `task_block` the running task can make: the idle task blocks, the others
wait or die. `sema_down`, which would block others too, has no caller. -/
def MayBlock (s : Sched) (status : TaskStatus) : Prop :=
  if s.runningTask = s.idleTask then status = .blocked
  else status = .sending ∨ status = .receiving ∨ status = .waiting ∨ status = .died

instance (s : Sched) (status : TaskStatus) : Decidable (s.MayBlock status) := by
  unfold MayBlock
  infer_instance

/-- `task_block`; `none` is a failed `ASSERT`. -/
def taskBlock (taskIpcCheck : Slot → Bool) (s : Sched) (status : TaskStatus) : Option Sched :=
  if (s.tasks s.runningTask).preemptCount = 0 then
    (s.setStatus s.runningTask status).schedule weight taskIpcCheck
  else none

end Weight

end Sched

/-! ## Runs -/

/-- What happens on the CPU: a task is created, spinlocks are taken or released, an
interrupt ends or the task yields, the timer ticks, the task blocks. -/
inductive SchedCall
  | create (priority : Nat)
  | preemptCount (n : Nat)
  | interrupt (taskIpcCheck : Slot → Bool)
  | timer (taskIpcCheck : Slot → Bool)
  | block (taskIpcCheck : Slot → Bool) (status : TaskStatus)

def schedStep (weight : Nat → Nat) (s : Sched) : SchedCall → Option Sched
  | .create priority => s.createTask weight priority
  | .preemptCount n =>
      some (s.setTask s.runningTask { s.tasks s.runningTask with preemptCount := n })
  | .interrupt taskIpcCheck => s.schedule weight taskIpcCheck
  | .timer taskIpcCheck => do (← s.taskUpdate weight).schedule weight taskIpcCheck
  | .block taskIpcCheck status =>
      if s.MayBlock status then s.taskBlock weight taskIpcCheck status else none

/-- The list heads that have been initialized. -/
def Sched.Used (s : Sched) : SchedList → Prop
  | .taskList => True
  | .waitingList => True
  | .exitedChildList p => (s.tasks p).exist = true

/-- `task_init` is done: the main task runs and the idle task is ready. -/
structure SchedInit (weight : Nat → Nat) (s : Sched) : Prop where
  idle : s.idleTask ≠ s.runningTask
  exist : ∀ i, (s.tasks i).exist = true ↔ i = s.runningTask ∨ i = s.idleTask
  ppid : ∀ i, (s.tasks i).exist = true → (s.tasks i).ppid = s.runningTask
  runningStatus : (s.tasks s.runningTask).status = .running
  idleStatus : (s.tasks s.idleTask).status = .ready
  priority : (s.tasks s.idleTask).priority = idlePriority
  vrunTime : ∀ i, (s.tasks i).exist = true → (s.tasks i).vrunTime = 0
  minVrunTime : s.minVrunTime = 0
  lists : s.links.Holds s.Used fun l => if l = .taskList then [s.idleTask] else []
  runningTasks : s.runningTasks = 1
  totalWeight : s.totalWeight = weight idlePriority

/-- All runs. -/
def schedSystem (weight : Nat → Nat) : System Sched SchedCall where
  init := SchedInit weight
  step s c t := schedStep weight s c = some t

end ClayFigure
