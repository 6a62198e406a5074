/-
# The first tasks

`task_init` makes the main task of the first CPU, which is its own parent, and lets it start the
idle task. `smp_init` then fills a slot for the main task of every other CPU, with the first one
as the parent, and does not count them. The table that these leave is the start of all runs.
-/

import ClayFigure.Task.Family

namespace ClayFigure

/-- `NR_CPUS`. -/
abbrev nrCpus : Nat := 256

namespace Family

/-! ## The code -/

/-- What `task_init` begins with. -/
def emptyTable : Family where
  tasks _ := ⟨pidNoTask, 0, 0, 0⟩
  links := ⟨fun _ => none, fun _ => none⟩
  mainTask _ := 0
  stage _ := .running

/-- `make_main_task` on the first CPU, whose `apic_id` is 0; the task runs already when
`init_task_struct` asks for the running one. -/
def makeMainTask (s : Family) : Option Family := do
  let (task, s) ← s.taskAlloc
  let s := s.initTaskStruct task task
  return { s with mainTask := Function.update s.mainTask 0 task }

/-- `task_init`. -/
def taskInit : Option Family := do
  let s ← emptyTable.makeMainTask
  let (_, s) ← s.taskStart 0 4096 true
  return s

/-- A pass of the loop of `smp_init`, in which the main task of CPU `i` is made. -/
def smpTask (s : Family) (i : Nat) : Option Family := do
  let (task, s) ← s.taskAlloc
  let s := s.initTaskStruct 0 task
  let s := s.setTask task { s.tasks task with cpuId := i }
  return { s with mainTask := Function.update s.mainTask i task }

/-- The loop of `smp_init` from CPU `i` on for `cpus` of them. -/
def smpLoop (s : Family) (i : Nat) : Nat → Option Family
  | 0 => some s
  | cpus + 1 => do smpLoop (← s.smpTask i) (i + 1) cpus

/-- `smp_init`. -/
def smpInit (s : Family) : Option Family := s.smpLoop 1 (nrCpus - 1)

/-! ## The table -/

/-- The table with the first `n` tasks. -/
def bootTable (n : Nat) : Family where
  tasks i :=
    if ¬ i.val < n then ⟨pidNoTask, 0, 0, 0⟩
    else if i.val = 0 then ⟨0, 0, 0, 1⟩
    else if i.val = 1 then ⟨1, 0, 0, 0⟩
    else ⟨i, 0, i - 1, 0⟩
  links :=
    { next := fun node =>
        match node with
        | .head l => if l.val < n then some (.tail l) else none
        | _ => none
      prev := fun node =>
        match node with
        | .tail l => if l.val < n then some (.head l) else none
        | _ => none }
  mainTask cpu := if 0 < cpu ∧ cpu + 1 < n then Fin.ofNat numTasks (cpu + 1) else 0
  stage _ := .running

theorem exists_bootTable {n : Nat} {i : Slot} : (bootTable n).Exists i ↔ i.val < n := by
  have hi := coe_ne_pidNoTask i
  unfold Exists bootTable
  by_cases hlt : i.val < n
  · simp only [hlt, not_true_eq_false, if_false, ne_eq, iff_true]
    split_ifs with hzero hone
    · decide
    · decide
    · exact hi
  · simp only [hlt, not_false_eq_true, if_true, ne_eq, not_true_eq_false]

/-- The first slots are taken one after the other. -/
theorem taskAlloc_bootTable (i : Slot) :
    (bootTable i).taskAlloc = some (i, ((bootTable i).memset i).setTask i ⟨i, 0, 0, 0⟩) := by
  have hfind : ((List.finRange numTasks).find? fun j => ¬ (bootTable i).Exists j) = some i := by
    rw [List.find?_eq_some_iff_getElem]
    refine ⟨by simp [exists_bootTable], i, by simp, by simp, fun j hj => ?_⟩
    simp [exists_bootTable, hj]
  unfold taskAlloc
  rw [hfind]

theorem lt_succ_iff_eq_or_lt {i l : Slot} : l.val < i.val + 1 ↔ l = i ∨ l.val < i.val := by
  rw [Fin.ext_iff, Nat.lt_succ_iff, Nat.le_iff_lt_or_eq, or_comm]

/-- An object that has not been used is set up anew. -/
theorem initList_bootTable (i : Slot) :
    (((bootTable i).links.clear i i).clear i i).initList i = (bootTable (i + 1)).links := by
  rw [Math.Links.mk.injEq]
  constructor
  · funext node
    simp only [Heap.initList, Heap.clear, Math.Links.prev_setNext, Math.Links.prev_setPrev,
      bootTable]
    cases node with
    | tail l =>
        by_cases hl : l = i
        · simp [hl]
        · simp only [Node.tail.injEq, reduceCtorEq, hl, if_false, lt_succ_iff_eq_or_lt, false_or]
    | _ => simp
  · funext node
    simp only [Heap.initList, Heap.clear, Math.Links.next_setPrev, Math.Links.next_setNext,
      bootTable]
    cases node with
    | head l =>
        by_cases hl : l = i
        · simp [hl]
        · simp only [Node.head.injEq, reduceCtorEq, hl, if_false, lt_succ_iff_eq_or_lt, false_or]
    | _ => simp

/-- A task that `smp_init` makes. -/
theorem smpTask_bootTable {i : Slot} (hi : 2 ≤ i.val) :
    (bootTable i).smpTask (i - 1) = some (bootTable (i + 1)) := by
  have hzero : 0 < i.val := Nat.lt_of_lt_of_le Nat.two_pos hi
  have hne : (0 : Slot) ≠ i := fun h => Nat.ne_of_lt hzero (Fin.ext_iff.mp h)
  have hmain : (bootTable i).tasks 0 = ⟨0, 0, 0, 1⟩ := by
    simp [bootTable, hne.symm]
  have hpid : ((bootTable i).tasks 0).pid = (0 : Slot) := by
    rw [hmain]
    rfl
  rw [smpTask, taskAlloc_bootTable]
  simp only [Option.bind_eq_bind, Option.bind_some, initTaskStruct_eq hpid hne, Option.pure_def,
    Option.some.injEq]
  rw [setTask, created, initList_bootTable]
  simp only [hmain]
  rw [Family.mk.injEq]
  refine ⟨?_, rfl, ?_, rfl⟩
  · funext j
    by_cases hj : j = i
    · subst hj
      have hone : ¬ j.val = 1 := Nat.ne_of_gt hi
      simp [bootTable, hne.symm, hone]
    · rw [Function.update_of_ne hj]
      have hlt : j.val < i.val + 1 ↔ j.val < i.val := by
        rw [lt_succ_iff_eq_or_lt, or_iff_right hj]
      simp only [bootTable, hlt, if_neg hj]
      by_cases hfirst : j = 0
      · subst hfirst
        simp [hne.symm]
      · rw [if_neg hfirst]
  · funext cpu
    rw [Function.update_apply]
    by_cases hcpu : cpu = i.val - 1
    · have hnext : cpu + 1 = i.val := by omega
      have hlast : Fin.ofNat numTasks i.val = i := Fin.ofNat_val_eq_self i
      rw [if_pos hcpu, bootTable]
      simp only [hnext, hlast]
      rw [if_pos ⟨by omega, Nat.lt_succ_self _⟩]
    · have hlt : cpu + 1 < i.val + 1 ↔ cpu + 1 < i.val := by omega
      rw [if_neg hcpu]
      simp only [bootTable, hlt]

theorem smpLoop_bootTable {n : Nat} : ∀ {i : Nat}, 1 ≤ i → i + 1 + n ≤ numTasks →
    (bootTable (i + 1)).smpLoop i n = some (bootTable (i + 1 + n)) := by
  induction n with
  | zero => exact fun _ _ => rfl
  | succ n ih =>
      intro i hi hle
      have htask := smpTask_bootTable (i := ⟨i + 1, by omega⟩) (Nat.succ_le_succ hi)
      simp only [Nat.add_sub_cancel] at htask
      rw [smpLoop, htask, Option.bind_eq_bind, Option.bind_some, ih (by omega) (by omega),
        Nat.add_right_comm (i + 1) 1 n, Nat.add_assoc (i + 1) n 1]

end Family

/-- The machine after boot: two tasks of the first CPU, and one for each other CPU. -/
def bootFamily : Family := Family.bootTable (nrCpus + 1)

namespace Family

/-- The table with the main task only. -/
def mainTable : Family :=
  { bootTable 1 with
    tasks := fun i => if i = 0 then ⟨0, 0, 0, 0⟩ else ⟨pidNoTask, 0, 0, 0⟩ }

theorem makeMainTask_eq : emptyTable.makeMainTask = some mainTable := by
  have hempty : emptyTable = bootTable (0 : Slot) := by
    rw [emptyTable, bootTable, Family.mk.injEq, Math.Links.mk.injEq]
    refine ⟨?_, ⟨?_, ?_⟩, ?_, rfl⟩
    · funext i
      simp
    · funext node
      cases node <;> simp
    · funext node
      cases node <;> simp
    · funext cpu
      simp
  have hlinks := initList_bootTable 0
  rw [makeMainTask, hempty, taskAlloc_bootTable]
  simp only [Option.bind_eq_bind, Option.bind_some, Option.pure_def, Option.some.injEq]
  rw [initTaskStruct, mainTable, Family.mk.injEq]
  refine ⟨?_, hlinks, ?_, rfl⟩
  · funext j
    by_cases hj : j = 0
    · simp [hj, memset]
    · simp [hj, memset, bootTable]
  · funext cpu
    simp [memset, bootTable, Function.update_apply]

/-- `task_init` leaves the main task, with one child, and the idle task. -/
theorem taskInit_eq : taskInit = some (bootTable 2) := by
  have hmain : mainTable.Exists 0 := by decide
  have hfind : ((List.finRange numTasks).find? fun j => ¬ mainTable.Exists j) = some 1 := by
    decide +kernel
  have halloc : mainTable.taskAlloc =
      some (1, (mainTable.memset 1).setTask 1 ⟨(1 : Slot), 0, 0, 0⟩) := by
    unfold taskAlloc
    rw [hfind]
  have hstart := taskStart_of_taskAlloc hmain rfl halloc (show ¬ 4096 &&& (4096 - 1) ≠ 0 by decide)
  have hlinks := initList_bootTable 1
  rw [taskInit, makeMainTask_eq, Option.bind_eq_bind, Option.bind_some, hstart, Option.bind_eq_bind,
    Option.bind_some, Option.pure_def, Option.some.injEq, created, Family.mk.injEq]
  refine ⟨?_, hlinks, ?_, rfl⟩
  · funext j
    by_cases hone : j = 1
    · subst hone
      rfl
    · by_cases hzero : j = 0
      · subst hzero
        rfl
      · have hlater : ¬ j.val < 2 := by
          rw [Fin.ext_iff] at hone hzero
          have hfirst : ((0 : Slot) : Nat) = 0 := rfl
          have hsecond : ((1 : Slot) : Nat) = 1 := rfl
          omega
        simp only [if_neg hone, if_neg hzero, mainTable, bootTable, if_pos hlater]
  · funext cpu
    have hone : ¬ (0 < cpu ∧ cpu + 1 < 1) := by omega
    have htwo : ¬ (0 < cpu ∧ cpu + 1 < 2) := by omega
    simp only [mainTable, bootTable, if_neg hone, if_neg htwo]

/-- What `task_init` and `smp_init` leave. -/
theorem smpInit_eq : taskInit.bind smpInit = some bootFamily := by
  rw [taskInit_eq, Option.bind_some, smpInit, smpLoop_bootTable (by decide) (by decide)]
  rfl

end Family

/-! ## The start of the runs -/

theorem exists_bootFamily {i : Slot} : bootFamily.Exists i ↔ i.val ≤ nrCpus :=
  Family.exists_bootTable.trans Nat.lt_succ_iff

/-- A task in use is one of the two of the first CPU, or the main task of another one. -/
theorem tasks_bootFamily {i : Slot} (hi : bootFamily.Exists i) :
    bootFamily.tasks i = if i.val = 0 then ⟨0, 0, 0, 1⟩ else ⟨i, 0, i - 1, 0⟩ := by
  have hlt : i.val < nrCpus + 1 := Nat.lt_succ_of_le (exists_bootFamily.mp hi)
  simp only [bootFamily, Family.bootTable, hlt, not_true_eq_false, if_false]
  split_ifs with hzero hone
  · rfl
  · simp [hone]
  · rfl

/-- Every task is a child of the main task of the first CPU. -/
theorem ppid_bootFamily {i : Slot} (hi : bootFamily.Exists i) : (bootFamily.tasks i).ppid = 0 := by
  rw [tasks_bootFamily hi]
  split <;> rfl

theorem bootFamily_booted : Booted bootFamily where
  pid i hi := by
    rw [tasks_bootFamily hi]
    split
    · next hzero => exact hzero.symm
    · rfl
  main i hi := by
    have hle := exists_bootFamily.mp hi
    by_cases hcpu : (bootFamily.tasks i).cpuId = 0
    · rw [hcpu]
      exact ⟨exists_bootFamily.mpr (Nat.zero_le _), rfl⟩
    · have hid : (bootFamily.tasks i).cpuId = i - 1 := by
        rw [tasks_bootFamily hi] at hcpu ⊢
        split at hcpu
        · exact absurd rfl hcpu
        · next hzero => rw [if_neg hzero]
      have hown : bootFamily.mainTask (i - 1) = i := by
        have hnext : i.val - 1 + 1 = i.val := by omega
        have hlater : 0 < i.val - 1 ∧ i.val < nrCpus + 1 := by omega
        simp only [bootFamily, Family.bootTable, hnext, if_pos hlater]
        exact Fin.ofNat_val_eq_self i
      rw [hid, hown]
      exact ⟨hi, hid⟩
  parent i hi := ⟨0, exists_bootFamily.mpr (Nat.zero_le _), ppid_bootFamily hi⟩
  running _ _ := rfl
  lists := by
    have hused {l : Slot} : bootFamily.Exists l ↔ l.val < nrCpus + 1 :=
      exists_bootFamily.trans Nat.lt_succ_iff.symm
    refine ⟨fun l hl => ?_, fun _ _ => List.nodup_nil, fun _ _ _ _ t ht => ?_, fun l hl => ?_⟩
    · have hnext : bootFamily.links.next (.head l) = some (.tail l) := if_pos (hused.mp hl)
      have hprev : bootFamily.links.prev (.tail l) = some (.head l) := if_pos (hused.mp hl)
      simp [Math.Links.Linked, Heap.nodes, hnext, hprev]
    · exact absurd ht List.not_mem_nil
    · exact if_neg fun h => hl (hused.mpr h)

end ClayFigure
