/-
# Parents, children and their ends

Creation of tasks, the two steps of their exit, and reaping, over the task table
and the lists of exited children. A task that exits first hands its children to
the main task of their CPU; the scheduler then puts it into the list of its own
parent, who may be another task by that time; the parent takes it out and frees
the slot. Other tasks may run between any two of these steps.
-/

import Mathlib.Data.Finset.Card
import Mathlib.Data.Fintype.Card
import ClayFigure.Kernel.Global
import ClayFigure.Lib.List
import ClayFigure.Math.Transition

namespace ClayFigure

open ClayFigure.Math

/-- The fields of `task_struct_t` that make up the family of a task. -/
structure FamilyTask where
  pid : Nat
  ppid : Nat
  cpuId : Nat
  childs : Nat
  deriving DecidableEq, Repr

/-- How far a task has come: it has not called `task_exit`, it has given its
children away, or the scheduler has informed its parent. -/
inductive Stage
  | running
  | exiting
  | died
  deriving DecidableEq, Repr

/-- The task table. The list of a slot is its `exited_child_list`, the member of a
slot its `general_tag`; every CPU in operation has a main task. -/
structure Family where
  tasks : Slot → FamilyTask
  links : Heap Slot Slot
  mainTask : Nat → Slot
  stage : Slot → Stage

namespace Family

/-! ## The code -/

/-- The slot is in use. -/
def Exists (s : Family) (i : Slot) : Prop := (s.tasks i).pid ≠ pidNoTask

instance (s : Family) : DecidablePred s.Exists := fun _ => inferInstanceAs (Decidable (_ ≠ _))

/-- `pid_to_task`, with the range check and `task_exist`; `none` is `NULL`. -/
def pidToTask (s : Family) (pid : Nat) : Option Slot :=
  if h : pid < numTasks then
    if s.Exists ⟨pid, h⟩ then some ⟨pid, h⟩ else none
  else none

def setTask (s : Family) (i : Slot) (t : FamilyTask) : Family :=
  { s with tasks := Function.update s.tasks i t }

/-- `memset(task, 0, sizeof(*task))`. -/
def memset (s : Family) (i : Slot) : Family :=
  { s.setTask i ⟨0, 0, 0, 0⟩ with links := s.links.clear i i }

/-- `task_alloc`: the first slot without a pid. -/
def taskAlloc (s : Family) : Option (Slot × Family) :=
  match (List.finRange numTasks).find? fun i => ¬ s.Exists i with
  | none => none
  | some i => some (i, (s.memset i).setTask i ⟨i, 0, 0, 0⟩)

/-- `task_free`. -/
def taskFree (s : Family) (i : Slot) : Family :=
  s.setTask i { s.tasks i with pid := pidNoTask }

/-- `init_task_struct`, called by the task in slot `cur`. -/
def initTaskStruct (s : Family) (cur i : Slot) : Family :=
  let s := s.memset i
  let s := s.setTask i ⟨i, (s.tasks cur).pid, (s.tasks cur).cpuId, 0⟩
  { s with links := s.links.initList i }

/-- `atomic_inc` of `childs`. -/
def incChilds (s : Family) (i : Slot) : Family :=
  s.setTask i { s.tasks i with childs := add64 (s.tasks i).childs 1 }

/-- `atomic_dec` of `childs`. -/
def decChilds (s : Family) (i : Slot) : Family :=
  s.setTask i { s.tasks i with childs := sub64 (s.tasks i).childs 1 }

/-- `task_start` by the task in slot `cur`; `kmallocOk` is whether memory for the
kernel stack is found. The outer `none` is a null dereference. -/
def taskStart (s : Family) (cur : Slot) (kstackSize : Nat) (kmallocOk : Bool) :
    Option (Option Slot × Family) :=
  if kstackSize &&& (kstackSize - 1) ≠ 0 then some (none, s)
  else
    match s.taskAlloc with
    | none => some (none, s)
    | some (task, s) =>
        if ¬ kmallocOk then some (none, s.taskFree task)
        else do
          let s := s.initTaskStruct cur task
          let parent ← s.pidToTask (s.tasks task).ppid
          return (some task, s.incChilds parent)

/-- `proc_execute` by the task in slot `cur`; `none` is a failed `ASSERT`, or the
null dereference on its failure path when no slot is free. -/
def procExecute (s : Family) (cur : Slot) (kstackSize : Nat) (kmallocOk : Bool) :
    Option (Slot × Family) :=
  if kstackSize &&& (kstackSize - 1) ≠ 0 then none
  else
    match s.taskAlloc with
    | none => none
    | some (task, s) => if ¬ kmallocOk then none else some (task, s.initTaskStruct cur task)

/-- One pass of the first loop of `main_task_adopt_child`. -/
def adoptTask (s : Family) (ppid : Nat) (i : Slot) : FamilyTask :=
  let child := s.tasks i
  if s.Exists i ∧ child.ppid = ppid then
    { child with ppid := (s.tasks (s.mainTask child.cpuId)).pid }
  else child

/-- The second loop of `main_task_adopt_child`, for at most `fuel` children. -/
def adoptExited (s : Family) (parent : Slot) : Nat → Option Family
  | 0 => none
  | fuel + 1 =>
      if s.links.listEmpty parent then some s
      else
        match s.links.listPop parent with
        | some (.elem child, k) => do
            let k ← k.listAppend (s.mainTask (s.tasks child).cpuId) (.elem child)
            adoptExited { s with links := k } parent fuel
        | _ => none

/-- `main_task_adopt_child`. A pass of the first loop reads the pids and its own
slot only, so the loop is a map over the table. -/
def mainTaskAdoptChild (s : Family) (ppid : Nat) : Option Family := do
  let parent ← s.pidToTask ppid
  adoptExited { s with tasks := s.adoptTask ppid } parent (numTasks + 1)

/-- `inform_exit`. -/
def informExit (s : Family) (exitedTask : Nat) : Option Family := do
  let task ← s.pidToTask exitedTask
  let parent ← s.pidToTask (s.tasks task).ppid
  let k ← s.links.listAppend parent (.elem task)
  return { s with links := k }

/-- `task_release_resource`, called by the task in slot `cur`. -/
def taskReleaseResource (s : Family) (cur : Slot) (pid : Nat) : Option Family := do
  let task ← s.pidToTask pid
  let parent ← s.pidToTask (s.tasks task).ppid
  if (s.tasks parent).pid ≠ (s.tasks cur).pid then none
  else return (s.decChilds parent).taskFree task

/-- The first check of `kern_waitpid`: `SYSCALL_ERROR` when there is no child. -/
def kernWaitpidFails (s : Family) (cur : Slot) : Bool := (s.tasks cur).childs = 0

/-- `kern_waitpid` with pid -1 behind its wait for an exited child. -/
def kernWaitpidReap (s : Family) (cur : Slot) : Option Family :=
  match s.links.listPop cur with
  | some (.elem child, k) =>
      let s := { s with links := k }
      s.taskReleaseResource cur (s.tasks child).pid
  | _ => none

end Family

/-! ## Runs -/

/-- A step of the task in slot `cur`, or of the scheduler on its behalf. -/
inductive FamilyCall
  | taskStart (cur : Slot) (kstackSize : Nat) (kmallocOk : Bool)
  | procExecute (cur : Slot) (kstackSize : Nat) (kmallocOk : Bool)
  | adopt (cur : Slot)
  | notify (cur : Slot)
  | reap (cur : Slot)
  deriving DecidableEq

/-- One step. Only a task that has not called `task_exit` creates, exits or reaps;
a main task does not exit; a reaper has an exited child. -/
def familyStep (s : Family) : FamilyCall → Option Family
  | .taskStart cur kstackSize kmallocOk =>
      if s.Exists cur ∧ s.stage cur = .running then do
        let (task, s) ← s.taskStart cur kstackSize kmallocOk
        match task with
        | none => return s
        | some task => return { s with stage := Function.update s.stage task .running }
      else none
  | .procExecute cur kstackSize kmallocOk =>
      if s.Exists cur ∧ s.stage cur = .running then do
        let (task, s) ← s.procExecute cur kstackSize kmallocOk
        return { s with stage := Function.update s.stage task .running }
      else none
  | .adopt cur =>
      if s.Exists cur ∧ s.stage cur = .running ∧ s.mainTask (s.tasks cur).cpuId ≠ cur then do
        let s ← s.mainTaskAdoptChild (s.tasks cur).pid
        return { s with stage := Function.update s.stage cur .exiting }
      else none
  | .notify cur =>
      if s.Exists cur ∧ s.stage cur = .exiting then do
        let s ← s.informExit (s.tasks cur).pid
        return { s with stage := Function.update s.stage cur .died }
      else none
  | .reap cur =>
      if s.Exists cur ∧ s.stage cur = .running ∧ ¬ s.links.listEmpty cur then
        s.kernWaitpidReap cur
      else none

/-- A table as boot leaves it: nobody has exited, and the main task of a CPU that is
in operation exists and runs there. -/
structure Booted (s : Family) : Prop where
  pid : ∀ i, s.Exists i → (s.tasks i).pid = i
  main : ∀ i, s.Exists i → s.Exists (s.mainTask (s.tasks i).cpuId) ∧
    (s.tasks (s.mainTask (s.tasks i).cpuId)).cpuId = (s.tasks i).cpuId
  parent : ∀ i, s.Exists i → ∃ j : Slot, s.Exists j ∧ (s.tasks i).ppid = j
  running : ∀ i, s.Exists i → s.stage i = .running
  lists : s.links.Holds s.Exists fun _ => []

/-- The runs from a booted table with a further property. -/
def familySystem (P : Family → Prop) : System Family FamilyCall where
  init s := Booted s ∧ P s
  step s c t := familyStep s c = some t

/-! ## The invariant -/

/-- The state of all families. The lists in use are those of the slots initialised
so far, whether or not their task still exists. -/
structure FamilyInv (s : Family) (used : Slot → Prop) (contents : Slot → List Slot) : Prop where
  pid : ∀ i, s.Exists i → (s.tasks i).pid = i
  main : ∀ i, s.Exists i → s.Exists (s.mainTask (s.tasks i).cpuId) ∧
    (s.tasks (s.mainTask (s.tasks i).cpuId)).cpuId = (s.tasks i).cpuId ∧
    s.stage (s.mainTask (s.tasks i).cpuId) = .running
  parent : ∀ i, s.Exists i → ∃ j : Slot, s.Exists j ∧ (s.tasks i).ppid = j
  used_of_exists : ∀ i, s.Exists i → used i
  lists : s.links.Holds used contents
  member : ∀ j, used j → ∀ i, i ∈ contents j ↔
    s.Exists i ∧ s.Exists j ∧ s.stage i = .died ∧ (s.tasks i).ppid = j
  childless : ∀ j, s.Exists j → s.stage j ≠ .running → ∀ i, s.Exists i → (s.tasks i).ppid ≠ j

namespace Family

@[simp]
theorem tasks_setTask (s : Family) (i : Slot) (t : FamilyTask) (j : Slot) :
    (s.setTask i t).tasks j = if j = i then t else s.tasks j := by
  simp [setTask, Function.update_apply]

@[simp]
theorem links_setTask (s : Family) (i : Slot) (t : FamilyTask) :
    (s.setTask i t).links = s.links := rfl

@[simp]
theorem mainTask_setTask (s : Family) (i : Slot) (t : FamilyTask) :
    (s.setTask i t).mainTask = s.mainTask := rfl

@[simp]
theorem stage_setTask (s : Family) (i : Slot) (t : FamilyTask) :
    (s.setTask i t).stage = s.stage := rfl

@[simp]
theorem cpuId_adoptTask (s : Family) (ppid : Nat) (i : Slot) :
    (s.adoptTask ppid i).cpuId = (s.tasks i).cpuId := by
  simp only [adoptTask]
  split <;> rfl

@[simp]
theorem pid_adoptTask (s : Family) (ppid : Nat) (i : Slot) :
    (s.adoptTask ppid i).pid = (s.tasks i).pid := by
  simp only [adoptTask]
  split <;> rfl

theorem pidToTask_coe {s : Family} {i : Slot} (hi : s.Exists i) : s.pidToTask i = some i := by
  simp [pidToTask, hi]

theorem pidToTask_eq_some {s : Family} {pid : Nat} {i : Slot} (h : s.pidToTask pid = some i) :
    s.Exists i ∧ pid = i := by
  unfold pidToTask at h
  split at h
  · split at h
    · cases h
      exact ⟨‹_›, rfl⟩
    · cases h
  · cases h

/-- A slot handed out was free. -/
theorem taskAlloc_eq_some {s t : Family} {i : Slot} (h : s.taskAlloc = some (i, t)) :
    ¬ s.Exists i ∧ t = (s.memset i).setTask i ⟨i, 0, 0, 0⟩ := by
  unfold taskAlloc at h
  split at h
  · cases h
  · next hfind =>
      cases h
      exact ⟨by simpa using List.find?_some hfind, rfl⟩

end Family

namespace FamilyInv

variable {s t : Family} {used : Slot → Prop} {contents : Slot → List Slot}

/-- A slot that is not in use is in no list. -/
theorem loose (hs : FamilyInv s used contents) {i : Slot} (hi : ¬ s.Exists i) :
    Heap.Loose used contents i :=
  fun l hl hmem => hi ((hs.member l hl i).mp hmem).1

theorem of_booted (hs : Booted s) : FamilyInv s s.Exists fun _ => [] where
  pid := hs.pid
  main i hi := ⟨(hs.main i hi).1, (hs.main i hi).2, hs.running _ (hs.main i hi).1⟩
  parent := hs.parent
  used_of_exists _ hi := hi
  lists := hs.lists
  member j hj i := by
    constructor
    · simp
    · rintro ⟨hi, -, hdied, -⟩
      rw [hs.running i hi] at hdied
      cases hdied
  childless j hj hstage := absurd (hs.running j hj) hstage

end FamilyInv

/-! ## What a step does -/

namespace Family

theorem coe_ne_pidNoTask (i : Slot) : (i : Nat) ≠ pidNoTask := by
  have := i.isLt
  unfold pidNoTask
  omega

/-- The table with a new task in slot `i`, whose parent in slot `cur` is left with
the counter `childs`. -/
def created (s : Family) (cur i : Slot) (childs : Nat) : Family where
  tasks j :=
    if j = i then ⟨i, cur, (s.tasks cur).cpuId, 0⟩
    else if j = cur then { s.tasks cur with childs := childs }
    else s.tasks j
  links := ((s.links.clear i i).clear i i).initList i
  mainTask := s.mainTask
  stage := Function.update s.stage i .running

/-- The table with slot `i` handed out and given back unused. -/
def discarded (s : Family) (i : Slot) : Family :=
  { s.setTask i ⟨pidNoTask, 0, 0, 0⟩ with links := s.links.clear i i }

theorem exists_created {s : Family} {cur i : Slot} (childs : Nat) (j : Slot) :
    (s.created cur i childs).Exists j ↔ j = i ∨ s.Exists j := by
  unfold Exists created
  by_cases hj : j = i
  · simp [hj, coe_ne_pidNoTask]
  · by_cases hjc : j = cur
    · subst hjc
      simp [hj]
    · simp [hj, hjc]

theorem exists_discarded {s : Family} {i : Slot} (hi : ¬ s.Exists i) (j : Slot) :
    (s.discarded i).Exists j ↔ s.Exists j := by
  unfold Exists discarded
  by_cases hj : j = i
  · subst hj
    simpa [Exists] using hi
  · simp [hj]

/-- `init_task_struct` on a slot just handed out. -/
theorem initTaskStruct_eq {s : Family} {cur i : Slot} (hcur : (s.tasks cur).pid = cur)
    (hne : cur ≠ i) :
    ((s.memset i).setTask i ⟨i, 0, 0, 0⟩).initTaskStruct cur i =
      { s.created cur i (s.tasks cur).childs with stage := s.stage } := by
  unfold initTaskStruct memset created
  simp only [Family.mk.injEq, links_setTask, mainTask_setTask, stage_setTask, and_self, and_true]
  funext j
  by_cases hj : j = i
  · simp [hj, hne, hcur]
  · by_cases hjc : j = cur
    · simp [hjc, hne]
    · simp [hj, hjc]

theorem pidToTask_created {s : Family} {cur i : Slot} (hcur : s.Exists cur) (childs : Nat) :
    (s.created cur i childs).pidToTask cur = some cur :=
  pidToTask_coe ((exists_created childs cur).mpr (Or.inr hcur))

/-- `task_start` in a slot just handed out: it is filled and the child counted. -/
theorem taskStart_of_taskAlloc {s f : Family} {cur i : Slot} (hcur : s.Exists cur)
    (hpid : (s.tasks cur).pid = cur) (halloc : s.taskAlloc = some (i, f)) {kstackSize : Nat}
    (hsize : ¬ kstackSize &&& (kstackSize - 1) ≠ 0) :
    s.taskStart cur kstackSize true = some (some i,
      { s.created cur i (add64 (s.tasks cur).childs 1) with stage := s.stage }) := by
  obtain ⟨hfree, rfl⟩ := taskAlloc_eq_some halloc
  have hne : cur ≠ i := by
    rintro rfl
    exact hfree hcur
  have hparent : ({ s.created cur i (s.tasks cur).childs with stage := s.stage } :
      Family).pidToTask cur = some cur := pidToTask_created hcur _
  have htask : ((s.created cur i (s.tasks cur).childs).tasks i).ppid = cur := by
    simp [created]
  have hcount : ({ s.created cur i (s.tasks cur).childs with stage := s.stage } :
      Family).incChilds cur =
      { s.created cur i (add64 (s.tasks cur).childs 1) with stage := s.stage } := by
    unfold incChilds setTask created
    simp only [Family.mk.injEq, and_self, and_true]
    funext j
    by_cases hj : j = cur
    · subst hj
      simp [hne]
    · simp [hj]
  unfold taskStart
  rw [if_neg hsize]
  simp only [halloc, not_true_eq_false, if_false, initTaskStruct_eq hpid hne, htask, hparent,
    Option.bind_eq_bind, Option.bind_some, hcount]
  rfl

/-- `task_start` fails and changes nothing, or fails and zeroes a free slot, or
fills one and counts the child. -/
theorem taskStart_cases {s : Family} {cur : Slot} (hcur : s.Exists cur)
    (hpid : (s.tasks cur).pid = cur) (kstackSize : Nat) (kmallocOk : Bool) :
    s.taskStart cur kstackSize kmallocOk = some (none, s) ∨
    ∃ i, ¬ s.Exists i ∧
      (s.taskStart cur kstackSize kmallocOk = some (none, s.discarded i) ∨
       s.taskStart cur kstackSize kmallocOk = some (some i,
        { s.created cur i (add64 (s.tasks cur).childs 1) with stage := s.stage })) := by
  by_cases hsize : kstackSize &&& (kstackSize - 1) ≠ 0
  · exact Or.inl (if_pos hsize)
  · cases halloc : s.taskAlloc with
    | none =>
        refine Or.inl ?_
        unfold taskStart
        rw [if_neg hsize, halloc]
    | some r =>
        obtain ⟨i, f⟩ := r
        refine Or.inr ⟨i, (taskAlloc_eq_some halloc).1, ?_⟩
        cases kmallocOk with
        | true => exact Or.inr (taskStart_of_taskAlloc hcur hpid halloc hsize)
        | false =>
            obtain ⟨hfree, rfl⟩ := taskAlloc_eq_some halloc
            refine Or.inl ?_
            unfold taskStart
            rw [if_neg hsize, halloc]
            simp only [Bool.false_eq_true, not_false_eq_true, if_true, Option.some.injEq,
              Prod.mk.injEq, true_and]
            unfold taskFree discarded memset setTask
            simp

/-- `proc_execute` fills a free slot and does not count the child. -/
theorem procExecute_eq_some {s t : Family} {cur i : Slot} (hcur : s.Exists cur)
    (hpid : (s.tasks cur).pid = cur) {kstackSize : Nat} {kmallocOk : Bool}
    (h : s.procExecute cur kstackSize kmallocOk = some (i, t)) :
    ¬ s.Exists i ∧ t = { s.created cur i (s.tasks cur).childs with stage := s.stage } := by
  unfold procExecute at h
  split at h
  · cases h
  · cases halloc : s.taskAlloc with
    | none =>
        rw [halloc] at h
        cases h
    | some r =>
        obtain ⟨j, s₁⟩ := r
        obtain ⟨hfree, rfl⟩ := taskAlloc_eq_some halloc
        have hne : cur ≠ j := by
          rintro rfl
          exact hfree hcur
        cases kmallocOk with
        | false => simp [halloc] at h
        | true =>
            simp only [halloc, not_true_eq_false, if_false, Option.some.injEq, Prod.mk.injEq] at h
            obtain ⟨rfl, rfl⟩ := h
            exact ⟨hfree, initTaskStruct_eq hpid hne⟩

end Family

namespace FamilyInv

variable {s t : Family} {used : Slot → Prop} {contents : Slot → List Slot}

/-- The invariant after a task in slot `cur` has created one in slot `i`. -/
theorem created (hs : FamilyInv s used contents) {cur i : Slot} (hcur : s.Exists cur)
    (hrun : s.stage cur = .running) (hi : ¬ s.Exists i) (childs : Nat) :
    FamilyInv (s.created cur i childs) (fun l => l = i ∨ used l)
      (Function.update contents i []) := by
  have hexists (j : Slot) : (s.created cur i childs).Exists j ↔ j = i ∨ s.Exists j :=
    Family.exists_created childs j
  have hne : cur ≠ i := by
    rintro rfl
    exact hi hcur
  have hold {j : Slot} (hj : s.Exists j) : j ≠ i := by
    rintro rfl
    exact hi hj
  have hppid {j : Slot} (hj : j ≠ i) :
      ((s.created cur i childs).tasks j).ppid = (s.tasks j).ppid := by
    by_cases hjc : j = cur <;> simp [Family.created, hj, hjc, hne]
  have hcpu {j : Slot} (hj : j ≠ i) :
      ((s.created cur i childs).tasks j).cpuId = (s.tasks j).cpuId := by
    by_cases hjc : j = cur <;> simp [Family.created, hj, hjc, hne]
  have hnew : (s.created cur i childs).tasks i = ⟨i, cur, (s.tasks cur).cpuId, 0⟩ := by
    simp [Family.created]
  have hstage {j : Slot} (hj : j ≠ i) : (s.created cur i childs).stage j = s.stage j := by
    simp [Family.created, hj]
  have hmain : (s.created cur i childs).mainTask = s.mainTask := rfl
  refine ⟨fun j hj => ?_, fun j hj => ?_, fun j hj => ?_, fun j hj => ?_, ?_,
    fun j hj k => ?_, fun j hj hstop k hk => ?_⟩
  · rcases (hexists j).mp hj with rfl | hj
    · rw [hnew]
    · by_cases hjc : j = cur <;>
        simp [Family.created, hold hj, hjc, hs.pid _ hj, hne, hs.pid _ hcur]
  · have hcase {c : Nat} (hc : s.Exists (s.mainTask c) ∧ (s.tasks (s.mainTask c)).cpuId = c ∧
        s.stage (s.mainTask c) = .running) :
        (s.created cur i childs).Exists (s.mainTask c) ∧
          ((s.created cur i childs).tasks (s.mainTask c)).cpuId = c ∧
          (s.created cur i childs).stage (s.mainTask c) = .running := by
      rw [hcpu (hold hc.1), hstage (hold hc.1)]
      exact ⟨(hexists _).mpr (Or.inr hc.1), hc.2⟩
    rw [hmain]
    rcases (hexists j).mp hj with rfl | hj
    · rw [hnew]
      exact hcase (hs.main cur hcur)
    · rw [hcpu (hold hj)]
      exact hcase (hs.main j hj)
  · rcases (hexists j).mp hj with rfl | hj
    · exact ⟨cur, (hexists cur).mpr (Or.inr hcur), by rw [hnew]⟩
    · obtain ⟨k, hk, heq⟩ := hs.parent j hj
      exact ⟨k, (hexists k).mpr (Or.inr hk), by rw [hppid (hold hj), heq]⟩
  · exact ((hexists j).mp hj).imp id (hs.used_of_exists j)
  · exact hs.lists.clear_initList (hs.loose hi) i
  · -- The new task has neither died nor a child.
    by_cases hji : j = i
    · subst hji
      rw [Function.update_self]
      constructor
      · simp
      · rintro ⟨hk, -, hdied, hpar⟩
        rcases (hexists k).mp hk with rfl | hk
        · simp [Family.created] at hdied
        · obtain ⟨l, hl, heq⟩ := hs.parent k hk
          rw [hppid (hold hk), heq] at hpar
          exact absurd hl (Fin.ext hpar ▸ hi)
    · rw [Function.update_of_ne hji, hs.member j (hj.resolve_left hji) k]
      by_cases hki : k = i
      · subst hki
        simp [hi, Family.created]
      · rw [hexists k, hexists j, hppid hki, hstage hki]
        simp [hji, hki]
  · rcases (hexists j).mp hj with rfl | hj
    · simp [Family.created] at hstop
    · rw [hstage (hold hj)] at hstop
      rcases (hexists k).mp hk with rfl | hk
      · rw [hnew]
        rintro heq
        have hjc : cur = j := Fin.ext heq
        exact hstop (hjc ▸ hrun)
      · rw [hppid (hold hk)]
        exact hs.childless j hj hstop k hk

/-- The invariant after a slot has been handed out and given back. -/
theorem discarded (hs : FamilyInv s used contents) {i : Slot} (hi : ¬ s.Exists i) :
    FamilyInv (s.discarded i) (fun l => l ≠ i ∧ used l) contents := by
  have hexists := Family.exists_discarded hi
  have hold {j : Slot} (hj : s.Exists j) : j ≠ i := by
    rintro rfl
    exact hi hj
  have htask {j : Slot} (hj : s.Exists j) : (s.discarded i).tasks j = s.tasks j := by
    simp [Family.discarded, hold hj]
  refine ⟨fun j hj => ?_, fun j hj => ?_, fun j hj => ?_, fun j hj => ?_, ?_,
    fun j hj k => ?_, fun j hj hstop k hk => ?_⟩
  · rw [hexists] at hj
    rw [htask hj, hs.pid j hj]
  · rw [hexists] at hj
    obtain ⟨hmain, hcpu, hrun⟩ := hs.main j hj
    rw [htask hj]
    exact ⟨(hexists _).mpr hmain, (congrArg FamilyTask.cpuId (htask hmain)).trans hcpu, hrun⟩
  · rw [hexists] at hj
    obtain ⟨k, hk, heq⟩ := hs.parent j hj
    exact ⟨k, (hexists k).mpr hk, by rw [htask hj, heq]⟩
  · rw [hexists] at hj
    exact ⟨hold hj, hs.used_of_exists j hj⟩
  · exact hs.lists.clear (hs.loose hi) i
  · rw [hs.member j hj.2 k, hexists, hexists]
    by_cases hk : s.Exists k
    · rw [htask hk]
      rfl
    · simp [hk]
  · rw [hexists] at hj hk
    rw [htask hk]
    exact hs.childless j hj hstop k hk

end FamilyInv

namespace Family

/-- The second loop of `main_task_adopt_child` empties the list of the parent into
those of the main tasks of the children. -/
theorem adoptExited_spec {s : Family} {used : Slot → Prop} {parent : Slot}
    (hparent : used parent) :
    ∀ {fuel : Nat} {k : Heap Slot Slot} {contents : Slot → List Slot},
      k.Holds used contents →
      (∀ c ∈ contents parent, used (s.mainTask (s.tasks c).cpuId) ∧
        s.mainTask (s.tasks c).cpuId ≠ parent) →
      (contents parent).length < fuel →
      ∃ k' contents', ({ s with links := k } : Family).adoptExited parent fuel =
          some { s with links := k' } ∧ k'.Holds used contents' ∧
        ∀ l, used l → ∀ i, i ∈ contents' l ↔
          (l ≠ parent ∧ i ∈ contents l) ∨
          (i ∈ contents parent ∧ l = s.mainTask (s.tasks i).cpuId) := by
  intro fuel
  induction fuel with
  | zero => exact fun _ _ hlen => absurd hlen (by omega)
  | succ fuel ih =>
      intro k contents hk hmain hlen
      have hempty := hk.listEmpty_iff hparent
      cases hxs : contents parent with
      | nil =>
          refine ⟨k, contents, by simp [adoptExited, hempty.mpr hxs], hk, fun l hl i => ?_⟩
          by_cases hlp : l = parent
          · simp [hlp, hxs]
          · simp [hlp]
      | cons c rest =>
          obtain ⟨hused, hne⟩ := hmain c (by simp [hxs])
          obtain ⟨k₁, hpop, hk₁⟩ := hk.listPop hparent hxs
          have hloose := hk.loose_of_removed hparent [] rest hxs
          obtain ⟨k₂, happend, hk₂⟩ := hk₁.listAppend hused hloose
          rw [Function.update_of_ne hne] at hk₂
          set m := s.mainTask (s.tasks c).cpuId with hm
          set contents₂ := Function.update (Function.update contents parent rest) m
            (contents m ++ [c]) with hcontents₂
          have hrest : contents₂ parent = rest := by
            rw [hcontents₂, Function.update_of_ne (Ne.symm hne), Function.update_self]
          rw [hxs, List.length_cons] at hlen
          obtain ⟨k', contents', hrun, hk', hmem⟩ := ih hk₂
            (fun d hd => hmain d (by rw [hxs]; exact List.mem_cons_of_mem _ (hrest ▸ hd)))
            (by rw [hrest]; omega)
          refine ⟨k', contents', ?_, hk', fun l hl i => ?_⟩
          · have hfull : ¬ k.listEmpty parent = true := by simp [hempty, hxs]
            simp only [adoptExited, hfull, hpop, ← hm, happend, Option.bind_eq_bind,
              Option.bind_some]
            exact hrun
          · have hcut (hlp : l ≠ parent) : i ∈ contents₂ l ↔ i ∈ contents l ∨ i = c ∧ l = m := by
              by_cases hlm : l = m
              · subst hlm
                simp [hcontents₂]
              · rw [hcontents₂, Function.update_of_ne hlm, Function.update_of_ne hlp]
                simp [hlm]
            rw [hmem l hl i, hrest, List.mem_cons]
            by_cases hlp : l = parent
            · subst hlp
              have hcm : l = s.mainTask (s.tasks c).cpuId → False := fun h => hne h.symm
              constructor
              · rintro (⟨h, -⟩ | ⟨hi, heq⟩)
                · exact absurd rfl h
                · exact Or.inr ⟨Or.inr hi, heq⟩
              · rintro (⟨h, -⟩ | ⟨rfl | hi, heq⟩)
                · exact absurd rfl h
                · exact (hcm heq).elim
                · exact Or.inr ⟨hi, heq⟩
            · rw [hcut hlp]
              constructor
              · rintro (⟨-, hi | ⟨rfl, heq⟩⟩ | ⟨hi, heq⟩)
                · exact Or.inl ⟨hlp, hi⟩
                · exact Or.inr ⟨Or.inl rfl, heq⟩
                · exact Or.inr ⟨Or.inr hi, heq⟩
              · rintro (⟨-, hi⟩ | ⟨rfl | hi, heq⟩)
                · exact Or.inl ⟨hlp, Or.inl hi⟩
                · exact Or.inl ⟨hlp, Or.inr ⟨rfl, heq⟩⟩
                · exact Or.inr ⟨hi, heq⟩

theorem mainTaskAdoptChild_spec {s : Family} {used : Slot → Prop} {contents : Slot → List Slot}
    (hlists : s.links.Holds used contents) {cur : Slot} (hcur : s.Exists cur) (hused : used cur)
    (hmain : ∀ c ∈ contents cur, used (s.mainTask (s.tasks c).cpuId) ∧
      s.mainTask (s.tasks c).cpuId ≠ cur)
    (hlen : (contents cur).length ≤ numTasks) :
    ∃ k contents', s.mainTaskAdoptChild cur =
        some { s with tasks := s.adoptTask cur, links := k } ∧ k.Holds used contents' ∧
      ∀ l, used l → ∀ i, i ∈ contents' l ↔ (l ≠ cur ∧ i ∈ contents l) ∨
        (i ∈ contents cur ∧ l = s.mainTask (s.tasks i).cpuId) := by
  have hrun : s.mainTaskAdoptChild cur =
      ({ s with tasks := s.adoptTask cur } : Family).adoptExited cur (numTasks + 1) := by
    simp [mainTaskAdoptChild, pidToTask_coe hcur]
  have hfuel : (contents cur).length < numTasks + 1 := by omega
  rw [hrun]
  generalize numTasks + 1 = fuel at hfuel
  have hspec := adoptExited_spec (s := { s with tasks := s.adoptTask cur }) hused hlists
    (fun c hc => by
      rw [cpuId_adoptTask]
      exact hmain c hc) hfuel
  simpa only [cpuId_adoptTask] using hspec

/-- The table after the task in slot `cur` has given its children away. -/
def adopted (s : Family) (cur : Slot) (k : Heap Slot Slot) : Family :=
  { s with
    tasks := s.adoptTask cur
    links := k
    stage := Function.update s.stage cur .exiting }

/-- The table after the parent of the task in slot `cur` has been informed. -/
def notified (s : Family) (cur : Slot) (k : Heap Slot Slot) : Family :=
  { s with links := k, stage := Function.update s.stage cur .died }

/-- The table after the task in slot `cur` has freed the slot `child`. -/
def reaped (s : Family) (cur child : Slot) (k : Heap Slot Slot) : Family :=
  { s with
    tasks := fun j =>
      if j = child then { s.tasks child with pid := pidNoTask }
      else if j = cur then { s.tasks cur with childs := sub64 (s.tasks cur).childs 1 }
      else s.tasks j
    links := k }

/-- A parent frees the slot of its child and counts one child less. -/
theorem taskReleaseResource_eq {s : Family} {cur child : Slot} (hcur : s.Exists cur)
    (hchild : s.Exists child) (hne : cur ≠ child) (hppid : (s.tasks child).ppid = cur) :
    s.taskReleaseResource cur child = some (s.reaped cur child s.links) := by
  simp only [taskReleaseResource, pidToTask_coe hchild, hppid, pidToTask_coe hcur,
    Option.bind_eq_bind, Option.bind_some, ne_eq, not_true_eq_false, if_false, Option.pure_def,
    Option.some.injEq]
  unfold taskFree decChilds reaped setTask
  simp only [Family.mk.injEq, and_self, and_true]
  funext j
  by_cases hjc : j = child
  · subst hjc
    simp [Ne.symm hne]
  · by_cases hj : j = cur <;> simp [hjc, hj, hne]

end Family

/-- What each call does to a table whose lists hold `contents`, with the sequences
the lists hold afterwards. -/
inductive FamilyMove (s : Family) (used : Slot → Prop) (contents : Slot → List Slot) :
    FamilyCall → Family → (Slot → Prop) → (Slot → List Slot) → Prop
  | startFailed {cur kstackSize kmallocOk} :
      FamilyMove s used contents (.taskStart cur kstackSize kmallocOk) s used contents
  | startDiscarded {cur kstackSize kmallocOk i} (hfree : ¬ s.Exists i) :
      FamilyMove s used contents (.taskStart cur kstackSize kmallocOk) (s.discarded i)
        (fun l => l ≠ i ∧ used l) contents
  | start {cur kstackSize kmallocOk i} (hcur : s.Exists cur) (hrun : s.stage cur = .running)
      (hfree : ¬ s.Exists i) :
      FamilyMove s used contents (.taskStart cur kstackSize kmallocOk)
        (s.created cur i (add64 (s.tasks cur).childs 1)) (fun l => l = i ∨ used l)
        (Function.update contents i [])
  | execute {cur kstackSize kmallocOk i} (hcur : s.Exists cur) (hrun : s.stage cur = .running)
      (hfree : ¬ s.Exists i) :
      FamilyMove s used contents (.procExecute cur kstackSize kmallocOk)
        (s.created cur i (s.tasks cur).childs) (fun l => l = i ∨ used l)
        (Function.update contents i [])
  | adopt {cur k contents'} (hcur : s.Exists cur) (hrun : s.stage cur = .running)
      (hmain : s.mainTask (s.tasks cur).cpuId ≠ cur) (hlists : k.Holds used contents')
      (hmember : ∀ l, used l → ∀ i, i ∈ contents' l ↔ (l ≠ cur ∧ i ∈ contents l) ∨
        (i ∈ contents cur ∧ l = s.mainTask (s.tasks i).cpuId)) :
      FamilyMove s used contents (.adopt cur) (s.adopted cur k) used contents'
  | notify {cur parent k} (hcur : s.Exists cur) (hexit : s.stage cur = .exiting)
      (hparent : s.Exists parent) (hppid : (s.tasks cur).ppid = parent)
      (hlists : k.Holds used (Function.update contents parent (contents parent ++ [cur]))) :
      FamilyMove s used contents (.notify cur) (s.notified cur k) used
        (Function.update contents parent (contents parent ++ [cur]))
  | reap {cur child rest k} (hcur : s.Exists cur) (hrun : s.stage cur = .running)
      (hcons : contents cur = child :: rest)
      (hlists : k.Holds used (Function.update contents cur rest)) :
      FamilyMove s used contents (.reap cur) (s.reaped cur child k) used
        (Function.update contents cur rest)

namespace FamilyInv

variable {s t : Family} {used : Slot → Prop} {contents : Slot → List Slot}

/-- A main task of some CPU is the main task of its own CPU. -/
theorem mainTask_ne (hs : FamilyInv s used contents) {cur i : Slot} (hi : s.Exists i)
    (hcur : s.mainTask (s.tasks cur).cpuId ≠ cur) : s.mainTask (s.tasks i).cpuId ≠ cur := by
  intro heq
  have hcpu := (hs.main i hi).2.1
  rw [heq] at hcpu
  exact hcur (by rw [hcpu, heq])

/-- A list holds no more tasks than there are slots. -/
theorem length_contents_le (hs : FamilyInv s used contents) {l : Slot} (hl : used l) :
    (contents l).length ≤ numTasks := by
  have hle := List.Nodup.length_le_card (hs.lists.nodup l hl)
  rwa [Fintype.card_fin] at hle

/-- A task that is not a main task can always give its children away. -/
theorem adopt_eq (hs : FamilyInv s used contents) {cur : Slot} (hcur : s.Exists cur)
    (hrun : s.stage cur = .running) (hmain : s.mainTask (s.tasks cur).cpuId ≠ cur) :
    ∃ k contents', familyStep s (.adopt cur) = some (s.adopted cur k) ∧
      FamilyMove s used contents (.adopt cur) (s.adopted cur k) used contents' := by
  have hused := hs.used_of_exists cur hcur
  obtain ⟨k, contents', hadopt, hk, hmember⟩ :=
    Family.mainTaskAdoptChild_spec hs.lists hcur hused
      (fun c hc => by
        have hc := (hs.member cur hused c).mp hc
        exact ⟨hs.used_of_exists _ (hs.main c hc.1).1, hs.mainTask_ne hc.1 hmain⟩)
      (hs.length_contents_le hused)
  refine ⟨k, contents', ?_, .adopt hcur hrun hmain hk hmember⟩
  have hguard : s.Exists cur ∧ s.stage cur = .running ∧ s.mainTask (s.tasks cur).cpuId ≠ cur :=
    ⟨hcur, hrun, hmain⟩
  simp only [familyStep, if_pos hguard, hs.pid cur hcur, hadopt, Option.bind_eq_bind,
    Option.bind_some, Option.pure_def]
  rfl

/-- The scheduler can always inform the parent of a task that exits. -/
theorem notify_eq (hs : FamilyInv s used contents) {cur : Slot} (hcur : s.Exists cur)
    (hexit : s.stage cur = .exiting) :
    ∃ (parent : Slot) (k : Heap Slot Slot), (s.tasks cur).ppid = parent ∧
      familyStep s (.notify cur) = some (s.notified cur k) ∧
      FamilyMove s used contents (.notify cur) (s.notified cur k) used
        (Function.update contents parent (contents parent ++ [cur])) := by
  obtain ⟨parent, hparent, hppid⟩ := hs.parent cur hcur
  have hloose : Heap.Loose used contents cur := fun l hl hmem => by
    have hdied := ((hs.member l hl cur).mp hmem).2.2.1
    rw [hexit] at hdied
    cases hdied
  obtain ⟨k, happend, hk⟩ := hs.lists.listAppend (hs.used_of_exists _ hparent) hloose
  refine ⟨parent, k, hppid, ?_, .notify hcur hexit hparent hppid hk⟩
  have hguard : s.Exists cur ∧ s.stage cur = .exiting := ⟨hcur, hexit⟩
  simp only [familyStep, if_pos hguard, Family.informExit, hs.pid cur hcur,
    Family.pidToTask_coe hcur, hppid, Family.pidToTask_coe hparent, happend, Option.bind_eq_bind,
    Option.bind_some, Option.pure_def]
  rfl

/-- Every call is one of the moves. -/
theorem move (hs : FamilyInv s used contents) {c : FamilyCall} (h : familyStep s c = some t) :
    ∃ used' contents', FamilyMove s used contents c t used' contents' := by
  cases c with
  | taskStart cur kstackSize kmallocOk =>
      simp only [familyStep] at h
      split at h
      · next hguard =>
          rcases Family.taskStart_cases hguard.1 (hs.pid cur hguard.1) kstackSize kmallocOk with
            heq | ⟨i, hfree, heq | heq⟩
          · simp only [heq, Option.bind_eq_bind, Option.bind_some, Option.pure_def,
              Option.some.injEq] at h
            subst h
            exact ⟨_, _, .startFailed⟩
          · simp only [heq, Option.bind_eq_bind, Option.bind_some, Option.pure_def,
              Option.some.injEq] at h
            subst h
            exact ⟨_, _, .startDiscarded hfree⟩
          · simp only [heq, Option.bind_eq_bind, Option.bind_some, Option.pure_def,
              Option.some.injEq] at h
            subst h
            exact ⟨_, _, .start hguard.1 hguard.2 hfree⟩
      · cases h
  | procExecute cur kstackSize kmallocOk =>
      simp only [familyStep] at h
      split at h
      · next hguard =>
          cases hexec : s.procExecute cur kstackSize kmallocOk with
          | none => simp [hexec] at h
          | some r =>
              obtain ⟨i, s₁⟩ := r
              obtain ⟨hfree, rfl⟩ :=
                Family.procExecute_eq_some hguard.1 (hs.pid cur hguard.1) hexec
              simp only [hexec, Option.bind_eq_bind, Option.bind_some, Option.pure_def,
                Option.some.injEq] at h
              subst h
              exact ⟨_, _, .execute hguard.1 hguard.2 hfree⟩
      · cases h
  | adopt cur =>
      by_cases hguard : s.Exists cur ∧ s.stage cur = .running ∧
          s.mainTask (s.tasks cur).cpuId ≠ cur
      · obtain ⟨k, contents', heq, hmove⟩ := hs.adopt_eq hguard.1 hguard.2.1 hguard.2.2
        rw [heq] at h
        cases h
        exact ⟨used, contents', hmove⟩
      · simp only [familyStep, if_neg hguard] at h
        cases h
  | notify cur =>
      by_cases hguard : s.Exists cur ∧ s.stage cur = .exiting
      · obtain ⟨parent, k, -, heq, hmove⟩ := hs.notify_eq hguard.1 hguard.2
        rw [heq] at h
        cases h
        exact ⟨used, _, hmove⟩
      · simp only [familyStep, if_neg hguard] at h
        cases h
  | reap cur =>
      simp only [familyStep] at h
      split at h
      · next hguard =>
          obtain ⟨hcur, hrun, hfull⟩ := hguard
          have hused := hs.used_of_exists cur hcur
          rw [hs.lists.listEmpty_iff hused] at hfull
          obtain ⟨child, rest, hcons⟩ := List.exists_cons_of_ne_nil hfull
          obtain ⟨k, hpop, hk⟩ := hs.lists.listPop hused hcons
          obtain ⟨hchild, -, hdied, hppid⟩ := (hs.member cur hused child).mp (by simp [hcons])
          have hne : cur ≠ child := by
            rintro rfl
            rw [hrun] at hdied
            cases hdied
          have hrelease := Family.taskReleaseResource_eq (s := { s with links := k }) hcur hchild
            hne hppid
          simp only [Family.kernWaitpidReap, hpop, hs.pid child hchild, hrelease,
            Option.some.injEq] at h
          subst h
          exact ⟨used, Function.update contents cur rest, .reap hcur hrun hcons hk⟩
      · cases h

end FamilyInv

end ClayFigure
