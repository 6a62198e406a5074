/-
# The table of weights

Every priority is an index into `task_prio_to_weight`, which has 40 entries, and
`IDLE_PRIORITY` is 40. A priority is stored when a task is created and used whenever the task
is put in the ready list, taken out of it or charged a tick. The runs here begin with the main
task alone, before the idle task is created; what other CPUs do is any change of the tasks that
gives none a priority the kernel does not use.
-/

import ClayFigure.Task.FairShare

namespace ClayFigure

open ClayFigure.Math

/-- `SERVICE_PRIORITY`. -/
abbrev servicePriority : Nat := 10

/-- The entries of `task_prio_to_weight`. -/
abbrev numPriorities : Nat := 40

/-! ## Where the table is read -/

namespace Sched

/-- The indices that `task_list_insert` reads. -/
def insertReads (s : Sched) (task : Slot) : List Nat :=
  if s.links.listFind .taskList (.elem task) (numTasks + 1) = some false then
    [(s.tasks task).priority]
  else []

/-- The indices that `task_unblock` reads. -/
def unblockReads (s : Sched) (pid : Slot) : List Nat :=
  match s.pidToTask pid with
  | some task => s.insertReads task
  | none => []

/-- The indices that are read for one task in `check_waiting_list`. -/
def checkTaskReads (taskIpcCheck : Slot → Bool) (s : Sched) (task : Slot) : List Nat :=
  let stat := (s.tasks task).status
  if (stat = .sending ∨ stat = .receiving) ∧ ¬ taskIpcCheck task then []
  else if stat = .waiting ∧ ¬ s.taskHasExitedChild task then []
  else
    match s.links.listRemove (.elem task) with
    | some k => (s.setLinks k).unblockReads task
    | none => []

/-- The indices that the loop of `check_waiting_list` reads. -/
def checkFromReads (taskIpcCheck : Slot → Bool) (s : Sched) : Nat → Node SchedList Slot → List Nat
  | 0, _ => []
  | fuel + 1, .elem task =>
      s.checkTaskReads taskIpcCheck task ++
        match s.links.next (.elem task), s.checkTask taskPrioToWeight taskIpcCheck task with
        | some nodeNext, some t =>
            if nodeNext = .tail .waitingList then [] else checkFromReads taskIpcCheck t fuel nodeNext
        | _, _ => []
  | _ + 1, _ => []

/-- The indices that `check_waiting_list` reads. -/
def waitingReads (taskIpcCheck : Slot → Bool) (s : Sched) : List Nat :=
  if s.links.listEmpty .waitingList then []
  else
    match s.links.next (.head .waitingList) with
    | some node => s.checkFromReads taskIpcCheck (numTasks + 1) node
    | none => []

/-- The indices that `get_next_task` reads. -/
def getNextReads (s : Sched) : List Nat :=
  (if s.links.listEmpty .taskList then s.unblockReads s.idleTask else []) ++
    match s.getNextTask taskPrioToWeight with
    | some (next, t) => [(t.tasks next).priority]
    | none => []

/-- The indices that `schedule` reads. -/
def scheduleReads (taskIpcCheck : Slot → Bool) (s : Sched) : List Nat :=
  if 0 < (s.tasks s.runningTask).preemptCount then []
  else
    (if (s.tasks s.runningTask).status = .running then s.insertReads s.runningTask else []) ++
      (match s.putAway taskPrioToWeight with
        | some t => t.waitingReads taskIpcCheck
        | none => []) ++
      match s.readyUp taskPrioToWeight taskIpcCheck with
      | some t => t.getNextReads
      | none => []

/-- The indices that `update_vrun_time` reads. -/
def updateReads (s : Sched) : List Nat :=
  [defaultPriority, (s.tasks s.runningTask).priority]

/-- The indices that `task_start` or `proc_execute` reads. -/
def createReads (s : Sched) (priority : Nat) : List Nat :=
  match s.initTask priority with
  | some (task, t) => t.insertReads task
  | none => []

/-- The indices that are read when something happens on the CPU. -/
def callReads (s : Sched) : SchedCall → List Nat
  | .create priority => s.createReads priority
  | .preemptCount _ => []
  | .interrupt taskIpcCheck => s.scheduleReads taskIpcCheck
  | .timer taskIpcCheck =>
      s.updateReads ++
        match s.taskUpdate taskPrioToWeight with
        | some t => t.scheduleReads taskIpcCheck
        | none => []
  | .block taskIpcCheck status => (s.setStatus s.runningTask status).scheduleReads taskIpcCheck

/-! ## Priorities stay -/

/-- All priorities are in the table; a slot that is not in use has one, too. -/
def InTable (s : Sched) : Prop := ∀ p, (s.tasks p).priority < numPriorities

/-- The tasks have the priorities they had. -/
def SamePriorities (s t : Sched) : Prop := ∀ p, (t.tasks p).priority = (s.tasks p).priority

theorem SamePriorities.inTable {s t : Sched} (h : s.SamePriorities t) (hs : s.InTable) :
    t.InTable := fun p => (h p).symm ▸ hs p

theorem SamePriorities.trans {s t u : Sched} (h : s.SamePriorities t) (h' : t.SamePriorities u) :
    s.SamePriorities u := fun p => (h' p).trans (h p)

theorem samePriorities_setTask (s : Sched) {p : Slot} {task : SchedTask}
    (h : task.priority = (s.tasks p).priority) : s.SamePriorities (s.setTask p task) := by
  intro q
  show (Function.update s.tasks p task q).priority = _
  by_cases hqp : q = p
  · rw [hqp, Function.update_self, h]
  · rw [Function.update_of_ne hqp]

theorem samePriorities_setStatus (s : Sched) (p : Slot) (status : TaskStatus) :
    s.SamePriorities (s.setStatus p status) := s.samePriorities_setTask rfl

section

variable {weight : Nat → Nat} {s t : Sched} {task : Slot}

/-- `task_update` changes the clocks of the running task only. -/
theorem taskUpdate_some (h : s.taskUpdate weight = some t) : ∃ runTime vrunTime minVrunTime,
    t = { s.setTask s.runningTask { s.tasks s.runningTask with
      runTime := runTime, vrunTime := vrunTime } with minVrunTime := minVrunTime } := by
  unfold taskUpdate at h
  by_cases hzero : weight (s.tasks s.runningTask).priority = 0 ∨ weight defaultPriority = 0
  · rw [if_pos hzero] at h
    cases h
  · rw [if_neg hzero] at h
    exact ⟨_, _, _, (Option.some.inj h).symm⟩

theorem samePriorities_taskUpdate (h : s.taskUpdate weight = some t) : s.SamePriorities t := by
  obtain ⟨runTime, vrunTime, minVrunTime, rfl⟩ := taskUpdate_some h
  exact s.samePriorities_setTask rfl

theorem samePriorities_taskListInsert (h : s.taskListInsert weight task = some t) :
    s.SamePriorities t := by
  unfold taskListInsert at h
  simp only [Option.bind_eq_bind, Option.bind_eq_some_iff, Option.pure_def] at h
  obtain ⟨found, -, h⟩ := h
  split at h
  · cases h
    exact fun _ => rfl
  · simp only [Option.bind_eq_some_iff, Option.some_inj] at h
    obtain ⟨first, -, node, -, k, -, rfl⟩ := h
    exact samePriorities_setStatus (s.setLinks k) task .ready

theorem samePriorities_taskUnblock (h : s.taskUnblock weight task = some t) :
    s.SamePriorities t := by
  simp only [taskUnblock, taskUnblockSub, Option.bind_eq_bind, Option.bind_eq_some_iff] at h
  obtain ⟨p, -, h⟩ := h
  exact samePriorities_taskListInsert h

theorem samePriorities_checkTask {taskIpcCheck : Slot → Bool}
    (h : s.checkTask weight taskIpcCheck task = some t) : s.SamePriorities t := by
  unfold checkTask at h
  simp only at h
  split at h
  · cases h
    exact fun _ => rfl
  · split at h
    · cases h
      exact fun _ => rfl
    · simp only [Option.bind_eq_bind, Option.bind_eq_some_iff] at h
      obtain ⟨k, -, h⟩ := h
      have hunblock : (s.setLinks k).SamePriorities t := samePriorities_taskUnblock h
      exact hunblock

theorem samePriorities_checkFrom {taskIpcCheck : Slot → Bool} {fuel : Nat}
    {node : Node SchedList Slot} (h : s.checkFrom weight taskIpcCheck fuel node = some t) :
    s.SamePriorities t := by
  induction fuel generalizing s node with
  | zero => cases h
  | succ fuel ih =>
      unfold checkFrom at h
      simp only [Option.bind_eq_bind, Option.bind_eq_some_iff] at h
      obtain ⟨nodeNext, -, h⟩ := h
      cases node with
      | head l => cases h
      | tail l => cases h
      | elem task =>
          simp only [Option.bind_eq_some_iff] at h
          obtain ⟨u, hcheck, h⟩ := h
          have hfirst := samePriorities_checkTask hcheck
          split at h
          · cases h
            exact hfirst
          · exact hfirst.trans (ih h)

theorem samePriorities_checkWaitingList {taskIpcCheck : Slot → Bool}
    (h : s.checkWaitingList weight taskIpcCheck = some t) : s.SamePriorities t := by
  unfold checkWaitingList at h
  split at h
  · cases h
    exact fun _ => rfl
  · simp only [Option.bind_eq_bind, Option.bind_eq_some_iff] at h
    obtain ⟨node, -, h⟩ := h
    exact samePriorities_checkFrom h

theorem samePriorities_getNextTask {next : Slot} (h : s.getNextTask weight = some (next, t)) :
    s.SamePriorities t := by
  unfold getNextTask at h
  split at h
  · simp only [Option.bind_eq_bind, Option.bind_eq_some_iff, Option.pure_def, Option.some_inj] at h
    obtain ⟨⟨node, k⟩, -, u, rfl, h⟩ := h
    cases node with
    | head l => cases h
    | tail l => cases h
    | elem q =>
        obtain ⟨-, rfl⟩ := Prod.mk.inj (Option.some.inj h)
        exact fun _ => rfl
  · simp only [Option.bind_eq_bind, Option.bind_eq_some_iff, Option.pure_def, Option.some_inj] at h
    obtain ⟨v, hunblock, k, -, u, rfl, h⟩ := h
    obtain ⟨-, rfl⟩ := Prod.mk.inj (Option.some.inj h)
    have hv : s.SamePriorities v := samePriorities_taskUnblock hunblock
    exact hv

theorem samePriorities_putAway (h : s.putAway weight = some t) : s.SamePriorities t := by
  unfold putAway at h
  cases hstatus : (s.tasks s.runningTask).status with
  | running =>
      simp only [hstatus] at h
      exact samePriorities_taskListInsert h
  | died =>
      simp only [hstatus, informExit, Option.bind_eq_bind, Option.bind_eq_some_iff, Option.pure_def,
        Option.some_inj] at h
      obtain ⟨parent, -, k, -, rfl⟩ := h
      exact fun _ => rfl
  | sending | receiving | waiting =>
      simp only [hstatus, Option.bind_eq_bind, Option.bind_eq_some_iff, Option.pure_def,
        Option.some_inj] at h
      obtain ⟨k, -, rfl⟩ := h
      exact fun _ => rfl
  | ready | blocked =>
      simp only [hstatus, Option.some_inj] at h
      exact h ▸ fun _ => rfl

theorem samePriorities_readyUp {taskIpcCheck : Slot → Bool}
    (h : s.readyUp weight taskIpcCheck = some t) : s.SamePriorities t := by
  simp only [readyUp, Option.bind_eq_bind, Option.bind_eq_some_iff] at h
  obtain ⟨u, haway, h⟩ := h
  exact (samePriorities_putAway haway).trans (samePriorities_checkWaitingList h)

theorem samePriorities_schedule {taskIpcCheck : Slot → Bool}
    (h : s.schedule weight taskIpcCheck = some t) : s.SamePriorities t := by
  unfold schedule at h
  split at h
  · cases h
    exact fun _ => rfl
  · simp only [Option.bind_eq_bind, Option.bind_eq_some_iff, Option.pure_def, Option.some_inj] at h
    obtain ⟨u, hready, ⟨next, v⟩, hnext, rfl⟩ := h
    have hu := (samePriorities_readyUp hready).trans (samePriorities_getNextTask hnext)
    exact hu.trans (v.samePriorities_setStatus next .running)

/-- A task that is created gets its priority, and the others keep theirs. -/
theorem inTable_initTask {priority : Nat} (hs : s.InTable) (hpriority : priority < numPriorities)
    (h : s.initTask priority = some (task, t)) : t.InTable := by
  simp only [initTask, Option.bind_eq_bind, Option.bind_eq_some_iff, Option.pure_def,
    Option.some_inj] at h
  obtain ⟨i, -, h⟩ := h
  obtain ⟨rfl, rfl⟩ := Prod.mk.inj h
  intro p
  show (Function.update s.tasks i _ p).priority < numPriorities
  by_cases hpi : p = i
  · rw [hpi, Function.update_self]
    exact hpriority
  · rw [Function.update_of_ne hpi]
    exact hs p

end

/-! ## Every read is a priority -/

section

variable {s : Sched} (hs : s.InTable)
include hs

theorem InTable.insertReads (task : Slot) : ∀ i ∈ s.insertReads task, i < numPriorities := by
  unfold Sched.insertReads
  split
  · exact List.forall_mem_singleton.mpr (hs task)
  · exact List.forall_mem_nil _

theorem InTable.unblockReads (pid : Slot) : ∀ i ∈ s.unblockReads pid, i < numPriorities := by
  unfold Sched.unblockReads
  split
  · exact hs.insertReads _
  · exact List.forall_mem_nil _

theorem InTable.checkTaskReads (taskIpcCheck : Slot → Bool) (task : Slot) :
    ∀ i ∈ s.checkTaskReads taskIpcCheck task, i < numPriorities := by
  unfold Sched.checkTaskReads
  simp only
  split
  · exact List.forall_mem_nil _
  · split
    · exact List.forall_mem_nil _
    · split
      · next k _ =>
          have hk : (s.setLinks k).InTable := hs
          exact hk.unblockReads task
      · exact List.forall_mem_nil _

end

theorem InTable.checkFromReads {s : Sched} (hs : s.InTable) (taskIpcCheck : Slot → Bool)
    (fuel : Nat) (node : Node SchedList Slot) :
    ∀ i ∈ s.checkFromReads taskIpcCheck fuel node, i < numPriorities := by
  induction fuel generalizing s node with
  | zero => exact List.forall_mem_nil _
  | succ fuel ih =>
      cases node with
      | head l => exact List.forall_mem_nil _
      | tail l => exact List.forall_mem_nil _
      | elem task =>
          rw [Sched.checkFromReads, List.forall_mem_append]
          refine ⟨hs.checkTaskReads taskIpcCheck task, ?_⟩
          split
          · next nodeNext t _ hcheck =>
              split
              · exact List.forall_mem_nil _
              · exact ih ((samePriorities_checkTask hcheck).inTable hs) nodeNext
          · exact List.forall_mem_nil _

section

variable {s : Sched} (hs : s.InTable)
include hs

theorem InTable.waitingReads (taskIpcCheck : Slot → Bool) :
    ∀ i ∈ s.waitingReads taskIpcCheck, i < numPriorities := by
  unfold Sched.waitingReads
  split
  · exact List.forall_mem_nil _
  · split
    · exact hs.checkFromReads taskIpcCheck _ _
    · exact List.forall_mem_nil _

theorem InTable.getNextReads : ∀ i ∈ s.getNextReads, i < numPriorities := by
  rw [Sched.getNextReads, List.forall_mem_append]
  constructor
  · split
    · exact hs.unblockReads s.idleTask
    · exact List.forall_mem_nil _
  · split
    · next next t hnext =>
        exact List.forall_mem_singleton.mpr ((samePriorities_getNextTask hnext).inTable hs next)
    · exact List.forall_mem_nil _

theorem InTable.scheduleReads (taskIpcCheck : Slot → Bool) :
    ∀ i ∈ s.scheduleReads taskIpcCheck, i < numPriorities := by
  unfold Sched.scheduleReads
  split
  · exact List.forall_mem_nil _
  · simp only [List.forall_mem_append]
    refine ⟨⟨?_, ?_⟩, ?_⟩
    · split
      · exact hs.insertReads s.runningTask
      · exact List.forall_mem_nil _
    · split
      · next t haway =>
          exact ((samePriorities_putAway haway).inTable hs).waitingReads taskIpcCheck
      · exact List.forall_mem_nil _
    · split
      · next t hready => exact ((samePriorities_readyUp hready).inTable hs).getNextReads
      · exact List.forall_mem_nil _

theorem InTable.createReads {priority : Nat} (hpriority : priority < numPriorities) :
    ∀ i ∈ s.createReads priority, i < numPriorities := by
  unfold Sched.createReads
  split
  · next task t hinit => exact (inTable_initTask hs hpriority hinit).insertReads task
  · exact List.forall_mem_nil _

theorem InTable.updateReads : ∀ i ∈ s.updateReads, i < numPriorities :=
  List.forall_mem_cons.mpr ⟨by decide, List.forall_mem_singleton.mpr (hs s.runningTask)⟩

end

end Sched

/-! ## Runs -/

/-- What happens on a CPU from the start of the main task on: its idle task is created, another
task is, one of the calls of the scheduler, or other CPUs leave the tasks in state `t`. -/
inductive PrioCall
  | createIdleTask
  | create (priority : Nat)
  | call (c : SchedCall)
  | others (t : Sched)

def prioStep (s : Sched) : PrioCall → Option Sched
  | .createIdleTask => do
      let (task, t) ← s.initTask idlePriority
      return { ← t.taskListInsert taskPrioToWeight task with idleTask := task }
  | .create priority => s.createTask taskPrioToWeight priority
  | .call c => schedStep taskPrioToWeight s c
  | .others t => some t

/-- The indices that are read. -/
def prioReads (s : Sched) : PrioCall → List Nat
  | .createIdleTask => s.createReads idlePriority
  | .create priority => s.createReads priority
  | .call c => s.callReads c
  | .others _ => []

/-- What the kernel does: the priorities of new tasks are the three constants or inherited by
`KERN_CREATE_PROC`, here and on other CPUs, and a task that is charged has run for less than
`2 ^ 53` ticks. -/
def KernelDoes (s : Sched) : PrioCall → Prop
  | .createIdleTask => True
  | .create priority => priority = defaultPriority ∨ priority = servicePriority ∨
      priority = (s.tasks s.runningTask).priority
  | .call (.create _) => False
  | .call (.timer _) => (s.tasks s.runningTask).runTime < 2 ^ 53
  | .call _ => True
  | .others t => ∀ p, (t.tasks p).priority = defaultPriority ∨
      (t.tasks p).priority = servicePriority ∨ (t.tasks p).priority = idlePriority ∨
        ∃ q, (t.tasks p).priority = (s.tasks q).priority

/-- No idle task is created, here or on another CPU. -/
def NoIdleTask (s : Sched) : PrioCall → Prop
  | .createIdleTask => False
  | .others t => ∀ p, (t.tasks p).priority = idlePriority → ∃ q, (s.tasks q).priority = idlePriority
  | _ => True

/-- The table is read inside its bounds, and `update_vrun_time` divides by no zero and computes a
product that fits in a word. -/
def TableSafe (s : Sched) (c : PrioCall) : Prop :=
  (∀ i ∈ prioReads s c, i < numPriorities) ∧ ∀ taskIpcCheck, c = .call (.timer taskIpcCheck) →
    taskPrioToWeight defaultPriority ≠ 0 ∧
      taskPrioToWeight (s.tasks s.runningTask).priority ≠ 0 ∧
        add64 (s.tasks s.runningTask).runTime 1 * taskPrioToWeight defaultPriority < wordSize

/-- `task_init` has made the main task; the slots are zero. -/
structure PrioInit (s : Sched) : Prop where
  exist : ∀ i, (s.tasks i).exist = true ↔ i = s.runningTask
  priority : ∀ i, (s.tasks i).priority = if i = s.runningTask then defaultPriority else 0
  runTime : ∀ i, (s.tasks i).runTime = 0
  vrunTime : ∀ i, (s.tasks i).vrunTime = 0
  status : (s.tasks s.runningTask).status = .running
  minVrunTime : s.minVrunTime = 0
  runningTasks : s.runningTasks = 0
  totalWeight : s.totalWeight = 0
  lists : s.links.Holds s.Used fun _ => []

/-- All runs. -/
def prioSystem : System Sched PrioCall where
  init := PrioInit
  step s c t := KernelDoes s c ∧ prioStep s c = some t

theorem PrioInit.inTable {s : Sched} (h : PrioInit s) : s.InTable := by
  intro p
  rw [h.priority p]
  split
  · decide
  · decide

/-- The first task that the main task creates is put in the ready list. -/
theorem PrioInit.createReads {s : Sched} (h : PrioInit s) (priority : Nat) :
    s.createReads priority = [priority] := by
  -- A free slot.
  obtain ⟨j, hj⟩ : ∃ j : Slot, j ≠ s.runningTask := exists_ne s.runningTask
  obtain ⟨i, hi⟩ : ∃ i, (List.finRange numTasks).find? (fun i => ! (s.tasks i).exist) = some i := by
    refine Option.isSome_iff_exists.mp (List.find?_isSome.mpr ⟨j, List.mem_finRange j, ?_⟩)
    rw [Bool.not_eq_true']
    exact Bool.eq_false_of_not_eq_true fun hexist => hj ((h.exist j).mp hexist)
  obtain ⟨t, hinit, hlinks, htask⟩ : ∃ t, s.initTask priority = some (i, t) ∧
      t.links = ((s.links.clear (.exitedChildList i) i).clear (.exitedChildList i) i).initList
        (.exitedChildList i) ∧ (t.tasks i).priority = priority := by
    simp only [Sched.initTask, hi, Option.bind_eq_bind, Option.bind_some, Option.pure_def,
      Option.some_inj, Prod.mk.injEq, true_and]
    refine ⟨_, rfl, rfl, ?_⟩
    simp only [Sched.setTask, Function.update_self]
  have hlists := h.lists.clear_initList (t := i) (fun _ _ => List.not_mem_nil) (.exitedChildList i)
  rw [← hlinks] at hlists
  have hused : SchedList.taskList = .exitedChildList i ∨ s.Used .taskList := Or.inr trivial
  have hnil : Function.update (fun _ => []) (SchedList.exitedChildList i) ([] : List Slot)
      .taskList = [] := Function.update_of_ne (by simp) ..
  have hfind : t.links.listFind .taskList (.elem i) (numTasks + 1) = some false := by
    rw [hlists.listFind hused (by rw [hnil]; exact Nat.succ_pos _), hnil]
    rfl
  have hreads : s.createReads priority = t.insertReads i := by
    unfold Sched.createReads
    generalize s.initTask priority = r at hinit
    subst hinit
    rfl
  rw [hreads, Sched.insertReads, if_pos hfind, htask]

/-- The first thing that `task_init` does then is to read behind the table. -/
theorem PrioInit.not_tableSafe {s : Sched} (h : PrioInit s) : ¬ TableSafe s .createIdleTask := by
  intro hsafe
  have hread := hsafe.1 idlePriority (by
    show idlePriority ∈ s.createReads idlePriority
    rw [h.createReads]
    exact List.mem_singleton_self _)
  exact Nat.lt_irrefl _ hread

/-- A priority that the kernel gives to a task that is not an idle task. -/
theorem inTable_of_create {s : Sched} (hs : s.InTable) {priority : Nat}
    (h : priority = defaultPriority ∨ priority = servicePriority ∨
      priority = (s.tasks s.runningTask).priority) : priority < numPriorities := by
  rcases h with rfl | rfl | rfl
  · decide
  · decide
  · exact hs s.runningTask

/-- One step. -/
theorem inTable_prioStep {s t : Sched} {c : PrioCall} (hs : s.InTable) (hno : NoIdleTask s c)
    (hdoes : KernelDoes s c) (hstep : prioStep s c = some t) : t.InTable := by
  cases c with
  | createIdleTask => exact hno.elim
  | create priority =>
      simp only [prioStep, Sched.createTask, Option.bind_eq_bind, Option.bind_eq_some_iff] at hstep
      obtain ⟨⟨task, u⟩, hinit, hinsert⟩ := hstep
      exact (Sched.samePriorities_taskListInsert hinsert).inTable
        (Sched.inTable_initTask hs (inTable_of_create hs hdoes) hinit)
  | others u =>
      cases hstep
      intro p
      rcases hdoes p with h | h | h | ⟨q, h⟩
      · rw [h]
        decide
      · rw [h]
        decide
      · obtain ⟨q, hq⟩ := hno p h
        rw [h, ← hq]
        exact hs q
      · rw [h]
        exact hs q
  | call c =>
      cases c with
      | create priority => exact hdoes.elim
      | preemptCount n =>
          cases hstep
          refine Sched.SamePriorities.inTable (Sched.samePriorities_setTask s ?_) hs
          rfl
      | interrupt taskIpcCheck => exact (Sched.samePriorities_schedule hstep).inTable hs
      | timer taskIpcCheck =>
          simp only [prioStep, schedStep, Option.bind_eq_bind, Option.bind_eq_some_iff] at hstep
          obtain ⟨u, hupdate, hschedule⟩ := hstep
          exact ((Sched.samePriorities_taskUpdate hupdate).trans
            (Sched.samePriorities_schedule hschedule)).inTable hs
      | block taskIpcCheck status =>
          simp only [prioStep, schedStep, Sched.taskBlock] at hstep
          split at hstep
          · split at hstep
            · exact ((s.samePriorities_setStatus s.runningTask status).trans
                (Sched.samePriorities_schedule hstep)).inTable hs
            · cases hstep
          · cases hstep

/-- What is read in a step. -/
theorem Sched.InTable.tableSafe {s : Sched} (hs : s.InTable) {c : PrioCall}
    (hno : NoIdleTask s c) (hdoes : KernelDoes s c) : TableSafe s c := by
  cases c with
  | createIdleTask => exact hno.elim
  | create priority =>
      have hreads : ∀ i ∈ s.createReads priority, i < numPriorities :=
        hs.createReads (inTable_of_create hs hdoes)
      refine ⟨hreads, ?_⟩
      rintro _ ⟨⟩
  | others u =>
      refine ⟨List.forall_mem_nil _, ?_⟩
      rintro _ ⟨⟩
  | call c =>
      cases c with
      | create priority => exact hdoes.elim
      | preemptCount n =>
          refine ⟨List.forall_mem_nil _, ?_⟩
          rintro _ ⟨⟩
      | interrupt taskIpcCheck =>
          refine ⟨hs.scheduleReads taskIpcCheck, ?_⟩
          rintro _ ⟨⟩
      | block taskIpcCheck status =>
          have ht := (s.samePriorities_setStatus s.runningTask status).inTable hs
          refine ⟨ht.scheduleReads taskIpcCheck, ?_⟩
          rintro _ ⟨⟩
      | timer taskIpcCheck =>
          refine ⟨List.forall_mem_append.mpr ⟨hs.updateReads, ?_⟩, fun _ _ => ⟨?_, ?_, ?_⟩⟩
          · split
            · next t hupdate =>
                exact ((Sched.samePriorities_taskUpdate hupdate).inTable hs).scheduleReads _
            · exact List.forall_mem_nil _
          · rw [taskPrioToWeight_default]
            decide
          · have hweight := taskPrioToWeight_pos (hs s.runningTask)
            omega
          · have hrun : (s.tasks s.runningTask).runTime < 2 ^ 53 := hdoes
            rw [taskPrioToWeight_default, add64_of_lt (by unfold wordSize; omega)]
            unfold wordSize
            omega

/-- In every run in which no idle task is created, each step reads the table inside its bounds and
computes what it means to compute. -/
theorem tableSafe_of_noIdleTask {s : Sched} (hs : prioSystem.ReachableWhen NoIdleTask s)
    {c : PrioCall} (hno : NoIdleTask s c) (hdoes : KernelDoes s c) : TableSafe s c := by
  have hinv : s.InTable := by
    refine System.ReachableWhen.invariant (P := Sched.InTable) (fun s h => PrioInit.inTable h) ?_ hs
    rintro s c t h hno ⟨hdoes, hstep⟩
    exact inTable_prioStep h hno hdoes hstep
  exact hinv.tableSafe hno hdoes

/-- A machine whose main task is in slot 0. -/
def bootPrio : Sched where
  tasks i := ⟨i = 0, 0, if i = 0 then .running else .ready, 0,
    if i = 0 then defaultPriority else 0, 0, 0⟩
  links := [SchedList.taskList, .waitingList, .exitedChildList 0].foldr (fun l k => k.initList l)
    ⟨fun _ => none, fun _ => none⟩
  minVrunTime := 0
  runningTasks := 0
  totalWeight := 0
  idleTask := 0
  runningTask := 0

theorem bootPrio_init : PrioInit bootPrio where
  exist _ := decide_eq_true_iff
  priority _ := rfl
  runTime _ := rfl
  vrunTime _ := rfl
  status := rfl
  minVrunTime := rfl
  runningTasks := rfl
  totalWeight := rfl
  lists := by
    have hlists := Heap.Holds.initLists Slot [SchedList.taskList, .waitingList,
      .exitedChildList 0] (by decide)
    refine hlists.congr_used fun l => ?_
    cases l with
    | exitedChildList p => simp [Sched.Used, bootPrio]
    | _ => simp [Sched.Used]

/-- The first tick. -/
theorem bootPrio_timer_tableSafe : TableSafe bootPrio (.call (.timer fun _ => false)) :=
  tableSafe_of_noIdleTask (.init bootPrio_init) trivial (show 0 < 2 ^ 53 by decide)

/-- The run of every boot. -/
theorem bootPrio_not_tableSafe : ¬ ∀ s c, prioSystem.Reachable s → KernelDoes s c →
    TableSafe s c :=
  fun h => bootPrio_init.not_tableSafe (h bootPrio .createIdleTask (.init bootPrio_init) trivial)

end ClayFigure
