/-
# Creations that fail

`task_start` and `proc_execute` of a build without assertions, over the task table, the
blocks `kmalloc` has given out and the queues of the CPUs. Each makes its allocations in
order; the failure label of `proc_execute` undoes all of them, whatever had been done. The
results say which failures leave everything as it was, and which do not.
-/

import Mathlib.Data.Finset.Insert
import Mathlib.Data.Fintype.Basic
import ClayFigure.Mem.Kmalloc

namespace ClayFigure

/-! ## The code -/

/-- The fields of `task_struct_t` that hold what a creation allocates, and those it uses. A
pointer is its address, `NULL` is 0; `page_dir` is a physical address. -/
structure NewTask where
  context : Nat
  kstackBase : Nat
  kstackSize : Nat
  pid : Nat
  ppid : Nat
  cpuId : Nat
  pageDir : Nat
  priority : Nat
  vmmFreeBlocks : Nat
  vmmUsingBlocks : Nat
  childs : Nat
  fxsaveRegion : Nat
  deriving DecidableEq, Repr

/-- The task table, the live blocks of `kmalloc` and the tasks in each `task_list`. -/
structure Creation where
  tasks : Slot → NewTask
  live : Finset Nat
  taskList : Nat → Finset Slot

/-- What `kmalloc` answers to the requests of one creation; `none` is an error status. -/
structure Grants where
  kstack : Option Nat
  fxsaveRegion : Option Nat
  pageDir : Option Nat
  vmmFree : Option Nat
  vmmUsing : Option Nat
  deriving DecidableEq, Repr

/-- A structure after `memset(task, 0, sizeof(*task))`. -/
def NewTask.zero : NewTask := ⟨0, 0, 0, 0, 0, 0, 0, 0, 0, 0, 0, 0⟩

namespace NewTask

/-! One assignment each; a record is large, and is not spelt out at every step. -/

def setPid (task : NewTask) (pid : Nat) : NewTask := { task with pid }

def setStack (task : NewTask) (kstackBase kstackSize : Nat) : NewTask :=
  { task with context := add64 kstackBase kstackSize, kstackBase, kstackSize }

def setParent (task : NewTask) (ppid cpuId : Nat) : NewTask := { task with ppid, cpuId }

def setPriority (task : NewTask) (priority : Nat) : NewTask := { task with priority }

def setContext (task : NewTask) (context : Nat) : NewTask := { task with context }

def setChilds (task : NewTask) (childs : Nat) : NewTask := { task with childs }

def setFxsaveRegion (task : NewTask) (fxsaveRegion : Nat) : NewTask := { task with fxsaveRegion }

def setPageDir (task : NewTask) (pageDir : Nat) : NewTask := { task with pageDir }

def setVmmFree (task : NewTask) (vmmFreeBlocks : Nat) : NewTask := { task with vmmFreeBlocks }

def setVmmUsing (task : NewTask) (vmmUsingBlocks : Nat) : NewTask := { task with vmmUsingBlocks }

end NewTask

namespace Creation

def Exists (s : Creation) (i : Slot) : Prop := (s.tasks i).pid ≠ pidNoTask

instance (s : Creation) : DecidablePred s.Exists := fun _ =>
  inferInstanceAs (Decidable (_ ≠ _))

def setTask (s : Creation) (i : Slot) (task : NewTask) : Creation :=
  { s with tasks := Function.update s.tasks i task }

/-- `pid_to_task`; `none` is `NULL`. -/
def pidToTask (s : Creation) (pid : Nat) : Option Slot :=
  if h : pid < numTasks then
    if s.Exists ⟨pid, h⟩ then some ⟨pid, h⟩ else none
  else none

/-- `task_alloc`. -/
def taskAlloc (s : Creation) : Option (Slot × Creation) :=
  match (List.finRange numTasks).find? fun i => ¬ s.Exists i with
  | none => none
  | some i => some (i, s.setTask i (NewTask.zero.setPid i))

/-- `task_free`. -/
def taskFree (s : Creation) (i : Slot) : Creation :=
  s.setTask i ((s.tasks i).setPid pidNoTask)

/-- A request that `kmalloc` grants or refuses. -/
def kmalloc (s : Creation) (block : Option Nat) : Creation :=
  { s with live := block.elim s.live fun b => insert b s.live }

/-- `kfree`. At an address that is no live block it reads the header of a page it does not
own, and follows the pointer it finds there: `none`. -/
def kfree (s : Creation) (addr : Nat) : Option Creation :=
  if addr = 0 then some s
  else if addr ∈ s.live then some { s with live := s.live.erase addr }
  else none

/-- `init_task_struct`, called by the task in slot `cur`; neither caller looks at the status
it returns. -/
def initTaskStruct (s : Creation) (cur task : Slot) (priority kstackBase kstackSize : Nat)
    (fxsaveRegion : Option Nat) : Creation :=
  let s := s.setTask task ((NewTask.zero.setStack kstackBase kstackSize).setPid task)
  let s := s.setTask task ((s.tasks task).setParent (s.tasks cur).pid (s.tasks cur).cpuId)
  let s := s.setTask task ((s.tasks task).setPriority priority)
  let s := s.kmalloc fxsaveRegion
  match fxsaveRegion with
  | none => s
  | some region => s.setTask task ((s.tasks task).setFxsaveRegion region)

/-- `create_task_struct`: room for the return address and the first context. -/
def createTaskStruct (s : Creation) (task : Slot) : Creation :=
  s.setTask task ((s.tasks task).setContext (sub64 (sub64 (s.tasks task).context 8) 64))

/-- `task_list_insert`, for the members of the list. -/
def taskListInsert (s : Creation) (task : Slot) : Creation :=
  let cpu := (s.tasks task).cpuId
  { s with taskList := Function.update s.taskList cpu (insert task (s.taskList cpu)) }

/-- `atomic_inc` of `childs`. -/
def incChilds (s : Creation) (i : Slot) : Creation :=
  s.setTask i ((s.tasks i).setChilds (add64 (s.tasks i).childs 1))

/-- `task_start` by the task in slot `cur`. Without a value, the call dereferences a null
pointer; the inner `none` is `NULL`. -/
def taskStart (s : Creation) (cur : Slot) (priority kstackSize : Nat) (grants : Grants) :
    Option (Option Slot × Creation) :=
  if kstackSize &&& (kstackSize - 1) ≠ 0 then some (none, s)
  else
    match s.taskAlloc with
    | none => some (none, s)
    | some (task, s) =>
        let s := s.kmalloc grants.kstack
        match grants.kstack with
        | none => some (none, s.taskFree task)
        | some kstackBase => do
            let s := s.initTaskStruct cur task priority kstackBase kstackSize grants.fxsaveRegion
            let s := s.createTaskStruct task
            let parentTask ← s.pidToTask (s.tasks task).ppid
            let s := s.incChilds parentTask
            return (some task, s.taskListInsert task)

/-- `create_page_dir`: the physical address of the directory. -/
def createPageDir (s : Creation) (pgdir : Option Nat) : Nat × Creation :=
  let s := s.kmalloc pgdir
  match pgdir with
  | none => (0, s)
  | some pgdir => (virtToPhys pgdir, s)

/-- `user_vaddr_table_init`: the blocks of the two tables, and whether both are there. -/
def userVaddrTableInit (s : Creation) (task : Slot) (vmmFree vmmUsing : Option Nat) :
    Bool × Creation :=
  let s := s.kmalloc vmmFree
  match vmmFree with
  | none => (false, s)
  | some blocks =>
      let s := s.setTask task ((s.tasks task).setVmmFree blocks)
      let s := s.kmalloc vmmUsing
      match vmmUsing with
      | none => (false, s)
      | some blocks => (true, s.setTask task ((s.tasks task).setVmmUsing blocks))

/-- `free_user_vaddr_table`. -/
def freeUserVaddrTable (s : Creation) (task : Slot) : Option Creation := do
  let s ← s.kfree (s.tasks task).vmmFreeBlocks
  s.kfree (s.tasks task).vmmUsingBlocks

/-- The label `fail` of `proc_execute`; `task` is `none` for `NULL`. -/
def procExecuteFail (s : Creation) (task : Option Slot) (kstackBase : Nat) :
    Option (Option Slot × Creation) := do
  let task ← task
  let s ← s.freeUserVaddrTable task
  let s ← s.kfree (physToVirt (s.tasks task).pageDir)
  let s ← s.kfree kstackBase
  return (none, s.taskFree task)

/-- `proc_execute` from `create_page_dir` on. -/
def procExecuteRest (s : Creation) (task : Slot) (kstackBase : Nat) (grants : Grants) :
    Option (Option Slot × Creation) :=
  let (pageDir, s) := s.createPageDir grants.pageDir
  let s := s.setTask task ((s.tasks task).setPageDir pageDir)
  if pageDir = 0 then s.procExecuteFail (some task) kstackBase
  else
    match s.userVaddrTableInit task grants.vmmFree grants.vmmUsing with
    | (false, s) => s.procExecuteFail (some task) kstackBase
    | (true, s) => some (some task, s.taskListInsert task)

/-- `proc_execute` by the task in slot `cur`, with its assertions compiled out. -/
def procExecute (s : Creation) (cur : Slot) (priority kstackSize : Nat) (grants : Grants) :
    Option (Option Slot × Creation) :=
  match s.taskAlloc with
  | none => s.procExecuteFail none 0
  | some (task, s) =>
      let s := s.kmalloc grants.kstack
      match grants.kstack with
      | none => s.procExecuteFail (some task) 0
      | some kstackBase =>
          let s := s.initTaskStruct cur task priority kstackBase kstackSize grants.fxsaveRegion
          (s.createTaskStruct task).procExecuteRest task kstackBase grants

/-! ## What is undone -/

/-- The slots in use, the live blocks and the queues are those from before; a slot that was
free is free. -/
structure Undone (s t : Creation) : Prop where
  inUse : ∀ i, s.Exists i → t.tasks i = s.tasks i
  free : ∀ i, ¬ s.Exists i → ¬ t.Exists i
  live : t.live = s.live
  taskList : t.taskList = s.taskList

/-- A call that returns `NULL`, follows no wild pointer and leaves everything as it was. -/
def FailsCleanly (s : Creation) (result : Option (Option Slot × Creation)) : Prop :=
  ∃ t, result = some (none, t) ∧ s.Undone t

/-- Some slot of the task table is free. -/
def HasSlot (s : Creation) : Prop := ∃ i, ¬ s.Exists i

end Creation

/-- The blocks `kmalloc` gives to one creation. -/
def Grants.blocks (grants : Grants) : List Nat :=
  grants.kstack.toList ++ grants.fxsaveRegion.toList ++ grants.pageDir.toList ++
    grants.vmmFree.toList ++ grants.vmmUsing.toList

/-- One of the allocations of `task_start` fails. -/
def Creation.StartLacks (s : Creation) (grants : Grants) : Prop :=
  ¬ s.HasSlot ∨ grants.kstack = none ∨ grants.fxsaveRegion = none

/-- One of the allocations of `proc_execute` fails. -/
def Creation.ProcLacks (s : Creation) (grants : Grants) : Prop :=
  s.StartLacks grants ∨ grants.pageDir = none ∨ grants.vmmFree = none ∨ grants.vmmUsing = none

theorem Grants.mem_blocks (grants : Grants) (b : Nat) :
    b ∈ grants.blocks ↔ b ∈ grants.kstack ∨ b ∈ grants.fxsaveRegion ∨ b ∈ grants.pageDir ∨
      b ∈ grants.vmmFree ∨ b ∈ grants.vmmUsing := by
  simp [blocks]

/-- What `kmalloc` promises: blocks of pages it owns, each given out once. -/
structure Creation.Granted (s : Creation) (grants : Grants) : Prop where
  live : ∀ b ∈ s.live, Allocator.IsBlock b
  block : ∀ b ∈ grants.blocks, Allocator.IsBlock b
  fresh : ∀ b ∈ grants.blocks, b ∉ s.live
  nodup : grants.blocks.Nodup

namespace NewTask

variable (task : NewTask) (addr : Nat)

@[simp] theorem pageDir_setPageDir : (task.setPageDir addr).pageDir = addr := rfl

@[simp] theorem vmmFreeBlocks_setPageDir :
    (task.setPageDir addr).vmmFreeBlocks = task.vmmFreeBlocks := rfl

@[simp] theorem vmmUsingBlocks_setPageDir :
    (task.setPageDir addr).vmmUsingBlocks = task.vmmUsingBlocks := rfl

@[simp] theorem pageDir_setVmmFree : (task.setVmmFree addr).pageDir = task.pageDir := rfl

@[simp] theorem vmmFreeBlocks_setVmmFree : (task.setVmmFree addr).vmmFreeBlocks = addr := rfl

@[simp] theorem vmmUsingBlocks_setVmmFree :
    (task.setVmmFree addr).vmmUsingBlocks = task.vmmUsingBlocks := rfl

@[simp] theorem pid_setPid : (task.setPid addr).pid = addr := rfl

end NewTask

namespace Creation

variable {s t u : Creation} {task : Slot} {addr : Nat}

@[simp] theorem live_setTask (s : Creation) (i : Slot) (record : NewTask) :
    (s.setTask i record).live = s.live := rfl

@[simp] theorem setTask_self (s : Creation) (i : Slot) (record : NewTask) :
    (s.setTask i record).tasks i = record := Function.update_self ..

@[simp] theorem tasks_kmalloc (s : Creation) (block : Option Nat) :
    (s.kmalloc block).tasks = s.tasks := rfl

theorem mem_live_kmalloc (s : Creation) (block : Option Nat) (b : Nat) :
    b ∈ (s.kmalloc block).live ↔ b ∈ block ∨ b ∈ s.live := by
  cases block with
  | none => simp [kmalloc]
  | some c => simp [kmalloc, eq_comm]

theorem kfree_zero (s : Creation) : s.kfree 0 = some s := if_pos rfl

/-- Freeing `NULL` or a live block. -/
theorem kfree_of_mem (hzero : 0 ∉ s.live) (hmem : addr = 0 ∨ addr ∈ s.live) :
    s.kfree addr = some { s with live := s.live.erase addr } := by
  by_cases hne : addr = 0
  · subst hne
    rw [kfree_zero, Finset.erase_eq_of_notMem hzero]
  · rw [kfree, if_neg hne, if_pos (hmem.resolve_left hne)]

theorem kfree_of_notMem (hne : addr ≠ 0) (hmem : addr ∉ s.live) : s.kfree addr = none := by
  rw [kfree, if_neg hne, if_neg hmem]

/-- `task_alloc` finds a slot when there is one. -/
theorem taskAlloc_of_hasSlot (h : s.HasSlot) : ∃ i, ¬ s.Exists i ∧
    s.taskAlloc = some (i, s.setTask i (NewTask.zero.setPid i)) := by
  obtain ⟨j, hj⟩ := h
  unfold taskAlloc
  cases hfind : (List.finRange numTasks).find? fun i => ¬ s.Exists i with
  | none =>
      have hexists := List.find?_eq_none.mp hfind j (List.mem_finRange j)
      exact absurd hj (by simpa using hexists)
  | some i => exact ⟨i, by simpa using List.find?_some hfind, rfl⟩

theorem taskAlloc_of_not_hasSlot (h : ¬ s.HasSlot) : s.taskAlloc = none := by
  unfold taskAlloc
  have hfind : (List.finRange numTasks).find? (fun i => ¬ s.Exists i) = none := by
    rw [List.find?_eq_none]
    intro i _
    simpa using not_not.mp fun hi => h ⟨i, hi⟩
  rw [hfind]

/-- Outside the record of `task`, the table and the queues are those from before. -/
structure Confined (s t : Creation) (task : Slot) : Prop where
  others : ∀ j ≠ task, t.tasks j = s.tasks j
  taskList : t.taskList = s.taskList

namespace Confined

theorem refl (s : Creation) (task : Slot) : s.Confined s task := ⟨fun _ _ => rfl, rfl⟩

theorem setTask (h : s.Confined t task) (record : NewTask) :
    s.Confined (t.setTask task record) task :=
  ⟨fun j hj => (Function.update_of_ne hj ..).trans (h.others j hj), h.taskList⟩

theorem kmalloc (h : s.Confined t task) (block : Option Nat) :
    s.Confined (t.kmalloc block) task :=
  ⟨h.others, h.taskList⟩

theorem initTaskStruct (h : s.Confined t task) (cur : Slot) (priority base size : Nat)
    (region : Option Nat) :
    s.Confined (t.initTaskStruct cur task priority base size region) task := by
  unfold Creation.initTaskStruct
  cases region with
  | none => exact (((h.setTask _).setTask _).setTask _).kmalloc _
  | some b => exact ((((h.setTask _).setTask _).setTask _).kmalloc _).setTask _

/-- A slot that was free is given back; what is left is to compare the live blocks. -/
theorem undone (h : s.Confined t task) (hfree : ¬ s.Exists task) (hlive : t.live = s.live) :
    s.Undone (t.taskFree task) where
  inUse i hi := by
    have hne : i ≠ task := fun heq => hfree (heq ▸ hi)
    exact (Function.update_of_ne hne ..).trans (h.others i hne)
  free i hi := by
    by_cases hne : i = task
    · subst hne
      simp [Exists, taskFree]
    · have hsame : (t.taskFree task).tasks i = s.tasks i :=
        (Function.update_of_ne hne ..).trans (h.others i hne)
      unfold Exists
      rw [hsame]
      exact hi
  live := hlive
  taskList := h.taskList

end Confined

/-- The two tables go back first. -/
theorem freeUserVaddrTable_eq (hzero : 0 ∉ t.live) (husing : (t.tasks task).vmmUsingBlocks = 0)
    (htable : (t.tasks task).vmmFreeBlocks = 0 ∨ (t.tasks task).vmmFreeBlocks ∈ t.live) :
    t.freeUserVaddrTable task =
      some { t with live := t.live.erase (t.tasks task).vmmFreeBlocks } := by
  unfold freeUserVaddrTable
  rw [kfree_of_mem hzero htable]
  change Creation.kfree _ (t.tasks task).vmmUsingBlocks = _
  rw [husing, kfree_zero]

/-- The failure label, when it is reached with blocks that are all live or `NULL`. -/
theorem procExecuteFail_eq {table dir base : Nat} (hzero : 0 ∉ t.live)
    (husing : (t.tasks task).vmmUsingBlocks = 0) (htable : (t.tasks task).vmmFreeBlocks = table)
    (hdir : physToVirt (t.tasks task).pageDir = dir) (htableLive : table = 0 ∨ table ∈ t.live)
    (hdirLive : dir ∈ t.live.erase table) (hbaseLive : base ∈ (t.live.erase table).erase dir) :
    t.procExecuteFail (some task) base =
      some (none, Creation.taskFree
        { t with live := ((t.live.erase table).erase dir).erase base } task) := by
  have hzero' : 0 ∉ t.live.erase table := fun h => hzero (Finset.mem_of_mem_erase h)
  have hzero'' : 0 ∉ (t.live.erase table).erase dir := fun h =>
    hzero' (Finset.mem_of_mem_erase h)
  subst htable hdir
  unfold procExecuteFail
  simp only [Option.bind_eq_bind, Option.bind_some]
  rw [freeUserVaddrTable_eq hzero husing htableLive, Option.bind_some,
    kfree_of_mem (s := { t with live := t.live.erase (t.tasks task).vmmFreeBlocks }) hzero'
      (Or.inr hdirLive),
    Option.bind_some,
    kfree_of_mem (s := { t with live :=
      (t.live.erase (t.tasks task).vmmFreeBlocks).erase (physToVirt (t.tasks task).pageDir) })
      hzero'' (Or.inr hbaseLive),
    Option.bind_some]
  rfl

/-- The failure label, when there is no page directory: it frees what is no block. -/
theorem procExecuteFail_wild {base : Nat} (husing : (t.tasks task).vmmUsingBlocks = 0)
    (htable : (t.tasks task).vmmFreeBlocks = 0) (hdir : (t.tasks task).pageDir = 0)
    (hlive : kernelVmaBase ∉ t.live) : t.procExecuteFail (some task) base = none := by
  have hphys : physToVirt 0 = kernelVmaBase := by decide
  have htables : t.freeUserVaddrTable task = some t := by
    unfold freeUserVaddrTable
    rw [htable, kfree_zero]
    change Creation.kfree _ (t.tasks task).vmmUsingBlocks = _
    rw [husing, kfree_zero]
  unfold procExecuteFail
  simp only [Option.bind_eq_bind, Option.bind_some]
  rw [htables, Option.bind_some, hdir, hphys, kfree_of_notMem (by decide) hlive, Option.bind_none]

/-- What the two creations have done when the task's record is filled. -/
structure Begun (s t : Creation) (task : Slot) (base : Nat) (region : Option Nat) : Prop where
  confined : s.Confined t task
  table : (t.tasks task).vmmFreeBlocks = 0
  tables : (t.tasks task).vmmUsingBlocks = 0
  live : ∀ b, b ∈ t.live ↔ b ∈ region ∨ b = base ∨ b ∈ s.live

theorem begun (s : Creation) (cur task : Slot) (priority base size : Nat) (region : Option Nat) :
    s.Begun ((((s.setTask task (NewTask.zero.setPid task)).kmalloc
      (some base)).initTaskStruct cur task priority base size region).createTaskStruct task)
      task base region where
  confined := ((((Confined.refl s task).setTask _).kmalloc _).initTaskStruct ..).setTask _
  table := by
    cases region <;> simp only [createTaskStruct, initTaskStruct, setTask_self, tasks_kmalloc] <;>
      rfl
  tables := by
    cases region <;> simp only [createTaskStruct, initTaskStruct, setTask_self, tasks_kmalloc] <;>
      rfl
  live b := by
    cases region <;>
      simp [createTaskStruct, initTaskStruct, mem_live_kmalloc, eq_comm]

/-- What is left when the label has run: the blocks it frees are gone, no other. -/
theorem failsCleanly_fail (table dir paddr : Nat) {base : Nat} {region : Option Nat}
    (hconf : s.Confined t task) (hfree : ¬ s.Exists task) (hzero : 0 ∉ t.live)
    (husing : (t.tasks task).vmmUsingBlocks = 0) (htable : (t.tasks task).vmmFreeBlocks = table)
    (hpageDir : (t.tasks task).pageDir = paddr) (hback : physToVirt paddr = dir)
    (hlive : ∀ b, b ∈ t.live ↔ (b = table ∧ b ≠ 0) ∨ b = dir ∨ b ∈ region ∨ b = base ∨ b ∈ s.live)
    (hnew : ∀ b, b = table ∨ b = dir ∨ b ∈ region ∨ b = base → b ∉ s.live)
    (hdirTable : dir ≠ table) (hbaseTable : base ≠ table) (hbaseDir : base ≠ dir)
    (hregion : ∀ b ∈ region, b ≠ table ∧ b ≠ dir ∧ b ≠ base) :
    s.FailsCleanly (t.procExecuteFail (some task) base) ↔ region = none := by
  rw [procExecuteFail_eq hzero husing htable (by rw [hpageDir, hback])]
  · constructor
    · rintro ⟨u, heq, hundone⟩
      obtain ⟨-, rfl⟩ := Prod.mk.inj (Option.some.inj heq)
      have hsame := hundone.live
      rw [Option.eq_none_iff_forall_not_mem]
      intro b hb
      obtain ⟨hne, hne', hne''⟩ := hregion b hb
      refine hnew b (Or.inr (Or.inr (Or.inl hb))) (hsame ▸ ?_)
      simp only [taskFree, live_setTask, Finset.mem_erase]
      exact ⟨hne'', hne', hne, (hlive b).mpr (Or.inr (Or.inr (Or.inl hb)))⟩
    · rintro rfl
      refine ⟨_, rfl, Confined.undone ⟨hconf.others, hconf.taskList⟩ hfree ?_⟩
      ext b
      simp only [Finset.mem_erase, hlive, Option.not_mem_none, false_or]
      constructor
      · rintro ⟨h1, h2, h3, h4⟩
        exact ((h4.resolve_left fun h => h3 h.1).resolve_left h2).resolve_left h1
      · intro hb
        exact ⟨fun h => hnew b (by simp [h]) hb, fun h => hnew b (by simp [h]) hb,
          fun h => hnew b (by simp [h]) hb, Or.inr (Or.inr (Or.inr hb))⟩
  · rw [hlive]
    exact or_iff_not_imp_left.mpr fun h => Or.inl ⟨rfl, h⟩
  · rw [Finset.mem_erase, hlive]
    exact ⟨hdirTable, Or.inr (Or.inl rfl)⟩
  · rw [Finset.mem_erase, Finset.mem_erase, hlive]
    exact ⟨hbaseDir, hbaseTable, by simp⟩

section Rest

variable {base : Nat} {region pageDir vmmFree vmmUsing : Option Nat}

theorem createPageDir_some (t : Creation) (dir : Nat) :
    t.createPageDir (some dir) = (virtToPhys dir, t.kmalloc (some dir)) := by
  unfold createPageDir
  rfl

/-- Past the page directory only the range tables are left. -/
theorem procExecuteRest_pageDir {dir : Nat} (hcreate : t.createPageDir pageDir = (dir, u))
    (hdir : dir ≠ 0) :
    t.procExecuteRest task base ⟨some base, region, pageDir, vmmFree, vmmUsing⟩ =
      match (u.setTask task ((u.tasks task).setPageDir dir)).userVaddrTableInit task
          vmmFree vmmUsing with
      | (false, s) => s.procExecuteFail (some task) base
      | (true, s) => some (some task, s.taskListInsert task) := by
  unfold procExecuteRest
  rw [hcreate]
  exact if_neg hdir

/-- Without a page directory the label is reached at once. -/
theorem procExecuteRest_null (hcreate : t.createPageDir pageDir = (0, u)) :
    t.procExecuteRest task base ⟨some base, region, pageDir, vmmFree, vmmUsing⟩ =
      (u.setTask task ((u.tasks task).setPageDir 0)).procExecuteFail (some task) base := by
  unfold procExecuteRest
  rw [hcreate]
  exact if_pos rfl

theorem procExecuteRest_no_pageDir (h : s.Begun t task base region)
    (hlive : kernelVmaBase ∉ t.live) :
    t.procExecuteRest task base ⟨some base, region, none, vmmFree, vmmUsing⟩ = none := by
  have hcreate : t.createPageDir none = (0, t.kmalloc none) := rfl
  rw [procExecuteRest_null hcreate]
  apply procExecuteFail_wild
  · simpa using h.tables
  · simpa using h.table
  · simp
  · exact hlive

/-- With everything granted the process is queued. -/
theorem procExecuteRest_granted (t : Creation) (task : Slot) (base : Nat) (region : Option Nat)
    {dir : Nat} (free used : Nat) (hdir : virtToPhys dir ≠ 0) :
    ∃ u, t.procExecuteRest task base ⟨some base, region, some dir, some free, some used⟩ =
      some (some task, u) := by
  have hcreate := t.createPageDir_some dir
  generalize virtToPhys dir = paddr at hdir hcreate
  rw [procExecuteRest_pageDir hcreate hdir]
  exact ⟨_, rfl⟩

/-- When a range table is refused, all goes back but the region `init_task_struct` took. -/
theorem procExecuteRest_failsCleanly {dir : Nat} (h : s.Begun t task base region)
    (hfree : ¬ s.Exists task) (htables : vmmFree = none ∨ vmmUsing = none)
    (hgranted : s.Granted ⟨some base, region, some dir, vmmFree, vmmUsing⟩) :
    s.FailsCleanly
        (t.procExecuteRest task base ⟨some base, region, some dir, vmmFree, vmmUsing⟩) ↔
      region = none := by
  have hdir := hgranted.block dir (by simp [Grants.mem_blocks])
  have hbase := hgranted.block base (by simp [Grants.mem_blocks])
  have hfresh := hgranted.fresh
  have hnodup := hgranted.nodup
  have hregion : ∀ b ∈ region, b ≠ 0 := fun b hb =>
    (hgranted.block b ((Grants.mem_blocks _ b).mpr (Or.inr (Or.inl hb)))).ne_zero
  have hzero : 0 ∉ s.live := fun h => (hgranted.live 0 h).ne_zero rfl
  obtain ⟨hne, hback⟩ := hdir.directMap
  have hcreate := t.createPageDir_some dir
  generalize virtToPhys dir = paddr at hne hback hcreate
  rw [procExecuteRest_pageDir hcreate hne]
  cases vmmFree with
  | none =>
      simp only [userVaddrTableInit]
      apply failsCleanly_fail 0 dir paddr
        (((h.confined.kmalloc _).setTask _).kmalloc _) hfree
      · simp only [mem_live_kmalloc, live_setTask, h.live, Option.mem_def, Option.some.injEq,
          reduceCtorEq, false_or]
        rintro (hb | hb | hb | hb)
        · exact hdir.ne_zero hb
        · exact hregion 0 hb rfl
        · exact hbase.ne_zero hb.symm
        · exact hzero hb
      · rw [tasks_kmalloc, setTask_self, NewTask.vmmUsingBlocks_setPageDir]
        exact h.tables
      · rw [tasks_kmalloc, setTask_self, NewTask.vmmFreeBlocks_setPageDir]
        exact h.table
      · rw [tasks_kmalloc, setTask_self, NewTask.pageDir_setPageDir]
      · exact hback
      · intro b
        have hne : ¬ (b = 0 ∧ b ≠ 0) := fun h => h.2 h.1
        rw [mem_live_kmalloc, live_setTask, mem_live_kmalloc, h.live, or_iff_right hne,
          or_iff_right (Option.not_mem_none b), Option.mem_some, eq_comm]
      · rintro b (rfl | rfl | hb | rfl)
        · exact hzero
        · exact hfresh _ (by simp [Grants.mem_blocks])
        · exact hfresh _ (by simp [Grants.mem_blocks, hb])
        · exact hfresh _ (by simp [Grants.mem_blocks])
      · exact hdir.ne_zero
      · exact hbase.ne_zero
      · rintro rfl
        simp [Grants.blocks, List.nodup_append] at hnodup
      · intro b hb
        refine ⟨hregion b hb, ?_, ?_⟩
        all_goals obtain rfl := Option.mem_def.mp hb
        · rintro rfl
          simp [Grants.blocks] at hnodup
        · rintro rfl
          simp [Grants.blocks] at hnodup
  | some free =>
      obtain rfl := htables.resolve_left (by simp)
      have hfreeBlock := hgranted.block free (by simp [Grants.mem_blocks])
      simp only [userVaddrTableInit]
      apply failsCleanly_fail free dir paddr
        (((((h.confined.kmalloc _).setTask _).kmalloc _).setTask _).kmalloc _) hfree
      · simp only [mem_live_kmalloc, live_setTask, h.live, Option.mem_def, Option.some.injEq,
          reduceCtorEq, false_or]
        rintro (hb | hb | hb | hb | hb)
        · exact hfreeBlock.ne_zero hb
        · exact hdir.ne_zero hb
        · exact hregion 0 hb rfl
        · exact hbase.ne_zero hb.symm
        · exact hzero hb
      · rw [tasks_kmalloc, setTask_self, NewTask.vmmUsingBlocks_setVmmFree, tasks_kmalloc,
          setTask_self, NewTask.vmmUsingBlocks_setPageDir]
        exact h.tables
      · rw [tasks_kmalloc, setTask_self, NewTask.vmmFreeBlocks_setVmmFree]
      · rw [tasks_kmalloc, setTask_self, NewTask.pageDir_setVmmFree, tasks_kmalloc,
          setTask_self, NewTask.pageDir_setPageDir]
      · exact hback
      · intro b
        have hne : b = free ∧ b ≠ 0 ↔ b = free :=
          and_iff_left_of_imp fun h => h ▸ hfreeBlock.ne_zero
        rw [mem_live_kmalloc, live_setTask, mem_live_kmalloc, live_setTask, mem_live_kmalloc,
          h.live, hne, or_iff_right (Option.not_mem_none b), Option.mem_some, Option.mem_some,
          eq_comm, @eq_comm _ dir]
      · rintro b (rfl | rfl | hb | rfl)
        · exact hfresh _ (by simp [Grants.mem_blocks])
        · exact hfresh _ (by simp [Grants.mem_blocks])
        · exact hfresh _ (by simp [Grants.mem_blocks, hb])
        · exact hfresh _ (by simp [Grants.mem_blocks])
      · rintro rfl
        simp [Grants.blocks, List.nodup_append] at hnodup
      · rintro rfl
        simp [Grants.blocks, List.nodup_append] at hnodup
      · rintro rfl
        simp [Grants.blocks, List.nodup_append] at hnodup
      · intro b hb
        refine ⟨?_, ?_, ?_⟩
        all_goals obtain rfl := Option.mem_def.mp hb
        · rintro rfl
          simp [Grants.blocks] at hnodup
        · rintro rfl
          simp [Grants.blocks] at hnodup
        · rintro rfl
          simp [Grants.blocks] at hnodup

end Rest

/-! ## The two creations -/

/-- `task_start` fails cleanly, but for the region it never asks about. -/
theorem taskStart_failsCleanly (s : Creation) (cur : Slot) (priority kstackSize : Nat)
    (grants : Grants) :
    (s.StartLacks grants → s.FailsCleanly (s.taskStart cur priority kstackSize grants)) ↔
      ¬ (kstackSize &&& (kstackSize - 1) = 0 ∧ s.HasSlot ∧ grants.kstack ≠ none ∧
        grants.fxsaveRegion = none) := by
  by_cases hsize : kstackSize &&& (kstackSize - 1) = 0
  · by_cases hslot : s.HasSlot
    · obtain ⟨task, hfree, halloc⟩ := taskAlloc_of_hasSlot hslot
      obtain ⟨kstack, region, pageDir, vmmFree, vmmUsing⟩ := grants
      simp only [taskStart, hsize, ne_eq, not_true_eq_false, if_false, halloc, StartLacks, hslot,
        false_or, true_and]
      cases kstack with
      | none =>
          refine iff_of_true (fun _ => ⟨_, rfl, ?_⟩) (by simp)
          exact (((Confined.refl s task).setTask _).kmalloc none).undone hfree rfl
      | some base =>
          simp only [reduceCtorEq, false_or, not_false_eq_true, true_and]
          constructor
          · rintro hclean rfl
            obtain ⟨t, heq, -⟩ := hclean rfl
            simp only [Option.bind_eq_bind, Option.bind_eq_some_iff] at heq
            obtain ⟨parentTask, -, heq⟩ := heq
            cases heq
          · exact fun hne h => absurd h hne
    · refine iff_of_true (fun _ => ⟨s, ?_, ⟨fun _ _ => rfl, fun _ h => h, rfl, rfl⟩⟩) ?_
      · simp only [taskStart, hsize, ne_eq, not_true_eq_false, if_false,
          taskAlloc_of_not_hasSlot hslot]
      · exact fun h => hslot h.2.1
  · refine iff_of_true (fun _ => ⟨s, ?_, ⟨fun _ _ => rfl, fun _ h => h, rfl, rfl⟩⟩) ?_
    · simp only [taskStart, hsize, ne_eq, not_false_eq_true, if_true]
    · exact fun h => hsize h.1

section Slot

variable (cur : Slot) (priority kstackSize : Nat) {region pageDir vmmFree vmmUsing : Option Nat}

/-- Without a slot the label is reached with a null pointer. -/
theorem procExecute_no_slot {grants : Grants} (hslot : ¬ s.HasSlot) :
    s.procExecute cur priority kstackSize grants = none := by
  unfold procExecute
  rw [taskAlloc_of_not_hasSlot hslot]
  rfl

theorem procExecute_no_kstack (hclear : kernelVmaBase ∉ s.live)
    (halloc : s.taskAlloc = some (task, s.setTask task (NewTask.zero.setPid task))) :
    s.procExecute cur priority kstackSize ⟨none, region, pageDir, vmmFree, vmmUsing⟩ = none := by
  unfold procExecute
  rw [halloc]
  apply procExecuteFail_wild
  · rw [tasks_kmalloc, setTask_self]
    rfl
  · rw [tasks_kmalloc, setTask_self]
    rfl
  · rw [tasks_kmalloc, setTask_self]
    rfl
  · exact hclear

theorem procExecute_kstack (grants : Grants) {base : Nat} (hkstack : grants.kstack = some base)
    (halloc : s.taskAlloc = some (task, s.setTask task (NewTask.zero.setPid task))) :
    ∃ t, s.Begun t task base grants.fxsaveRegion ∧
      s.procExecute cur priority kstackSize grants = t.procExecuteRest task base grants := by
  refine ⟨_, begun s cur task priority base kstackSize grants.fxsaveRegion, ?_⟩
  unfold procExecute
  rw [halloc]
  simp only [hkstack]

end Slot

/-- `proc_execute` fails cleanly only past the page directory, when it is the region that is
missing, or when nothing fails. -/
theorem procExecute_failsCleanly (s : Creation) (cur : Slot) (priority kstackSize : Nat)
    (grants : Grants) (hgranted : s.Granted grants) :
    (s.ProcLacks grants → s.FailsCleanly (s.procExecute cur priority kstackSize grants)) ↔
      ¬ s.ProcLacks grants ∨ (s.HasSlot ∧ grants.kstack ≠ none ∧ grants.pageDir ≠ none ∧
        grants.fxsaveRegion = none ∧ (grants.vmmFree = none ∨ grants.vmmUsing = none)) := by
  have hclear : kernelVmaBase ∉ s.live := fun h => (hgranted.live _ h).bounds.1.ne rfl
  have hfails : ¬ s.FailsCleanly none := by
    rintro ⟨t, heq, -⟩
    cases heq
  by_cases hslot : s.HasSlot
  · obtain ⟨task, hfree, halloc⟩ := taskAlloc_of_hasSlot hslot
    obtain ⟨kstack, region, pageDir, vmmFree, vmmUsing⟩ := grants
    cases kstack with
    | none =>
        rw [procExecute_no_kstack cur priority kstackSize hclear halloc]
        simp [ProcLacks, StartLacks, hfails]
    | some base =>
        obtain ⟨t, hbegun, heq⟩ := procExecute_kstack cur priority kstackSize
          ⟨some base, region, pageDir, vmmFree, vmmUsing⟩ rfl halloc
        rw [heq]
        cases pageDir with
        | none =>
            have hblock := hgranted.block
            rw [procExecuteRest_no_pageDir hbegun]
            · simp [ProcLacks, hfails]
            · rw [hbegun.live]
              rintro (h | h | h)
              · exact (hblock _ ((Grants.mem_blocks _ _).mpr (Or.inr (Or.inl h)))).bounds.1.ne rfl
              · exact (hgranted.block base (by simp [Grants.mem_blocks])).bounds.1.ne h
              · exact hclear h
        | some dir =>
            by_cases htables : vmmFree = none ∨ vmmUsing = none
            · rw [procExecuteRest_failsCleanly hbegun hfree htables hgranted]
              simp [ProcLacks, StartLacks, hslot, htables]
            · obtain ⟨hfreeTable, husing⟩ := not_or.mp htables
              obtain ⟨free, rfl⟩ := Option.ne_none_iff_exists'.mp hfreeTable
              obtain ⟨used, rfl⟩ := Option.ne_none_iff_exists'.mp husing
              obtain ⟨u, hu⟩ := procExecuteRest_granted t task base region free used
                (hgranted.block dir (by simp [Grants.mem_blocks])).directMap.1
              have hqueued : ¬ s.FailsCleanly (some (some task, u)) := by
                rintro ⟨v, heq, -⟩
                cases heq
              rw [hu]
              simp [ProcLacks, StartLacks, hslot, hqueued]
  · rw [procExecute_no_slot cur priority kstackSize hslot]
    simp [ProcLacks, StartLacks, hslot, hfails]

/-- The two creations fail cleanly just when no region and no late block is refused. -/
theorem creation_failsCleanly_iff (s : Creation) (cur : Slot) (priority kstackSize : Nat)
    (grants : Grants) (hgranted : s.Granted grants) :
    ((s.StartLacks grants → s.FailsCleanly (s.taskStart cur priority kstackSize grants)) ↔
      ¬ (kstackSize &&& (kstackSize - 1) = 0 ∧ s.HasSlot ∧ grants.kstack ≠ none ∧
        grants.fxsaveRegion = none)) ∧
    ((s.ProcLacks grants → s.FailsCleanly (s.procExecute cur priority kstackSize grants)) ↔
      ¬ s.ProcLacks grants ∨ (s.HasSlot ∧ grants.kstack ≠ none ∧ grants.pageDir ≠ none ∧
        grants.fxsaveRegion = none ∧ (grants.vmmFree = none ∨ grants.vmmUsing = none))) :=
  ⟨taskStart_failsCleanly s cur priority kstackSize grants,
    procExecute_failsCleanly s cur priority kstackSize grants hgranted⟩

/-- The main task alone, before anything is allocated. -/
def mainOnly : Creation where
  tasks i := if i = 0 then NewTask.zero else NewTask.zero.setPid pidNoTask
  live := ∅
  taskList _ := {0}

theorem mainOnly_hasSlot : mainOnly.HasSlot := ⟨1, fun h => h rfl⟩

/-- Without a kernel stack `task_start` leaves everything as it was. -/
theorem mainOnly_taskStart_clean :
    mainOnly.FailsCleanly (mainOnly.taskStart 0 20 4096 ⟨none, none, none, none, none⟩) :=
  (mainOnly.creation_failsCleanly_iff 0 20 4096 ⟨none, none, none, none, none⟩
    ⟨nofun, nofun, nofun, List.nodup_nil⟩).1.mpr (fun h => h.2.2.1 rfl) (Or.inr (Or.inl rfl))

/-- A block that is granted for the kernel stack. -/
def firstBlock : Nat := Allocator.cache2block (Allocator.pageOf 8) 6 0

/-- With a kernel stack and nothing else, `task_start` queues a task without a region, and
`proc_execute` frees what is no block. -/
theorem mainOnly_not_clean :
    ¬ ((mainOnly.StartLacks ⟨some firstBlock, none, none, none, none⟩ →
        mainOnly.FailsCleanly
          (mainOnly.taskStart 0 20 4096 ⟨some firstBlock, none, none, none, none⟩)) ∨
      (mainOnly.ProcLacks ⟨some firstBlock, none, none, none, none⟩ →
        mainOnly.FailsCleanly
          (mainOnly.procExecute 0 20 4096 ⟨some firstBlock, none, none, none, none⟩))) := by
  have hblock : Allocator.IsBlock firstBlock := ⟨8, 0, 6, by decide, by decide, rfl⟩
  have hgranted : mainOnly.Granted ⟨some firstBlock, none, none, none, none⟩ := by
    refine ⟨nofun, ?_, fun _ _ => Finset.notMem_empty _, by simp [Grants.blocks]⟩
    intro b hb
    obtain rfl : b = firstBlock := by simpa [Grants.blocks] using hb
    exact hblock
  rw [taskStart_failsCleanly, procExecute_failsCleanly _ _ _ _ _ hgranted]
  simp [mainOnly_hasSlot, ProcLacks]

end Creation

end ClayFigure
