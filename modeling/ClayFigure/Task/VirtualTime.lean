/-
# Virtual time

`task_update` charges a tick to any task of a CPU, in any order. It scales the run time of the
task by its weight, raises the result to `min_vrun_time`, and then scales it back so that the
task goes on from there; both divisions round down. The clocks never go back all the same.
-/

import ClayFigure.Task.FairShare

namespace ClayFigure

open ClayFigure.Math

/-! ## Runs -/

/-- What happens to the clocks of a CPU: a task joins, or the timer ticks while it runs. -/
inductive ClockCall
  | join (p : Slot) (task : SchedTask)
  | update (p : Slot)

def clockStep (s : Sched) : ClockCall → Option Sched
  | .join p task => if (s.tasks p).exist then none else some (s.setTask p task)
  | .update p =>
      if (s.tasks p).exist then { s with runningTask := p }.taskUpdate taskPrioToWeight else none

/-- A task that joins has a priority with a weight, and its clock stands at 0; the two products
that `update_vrun_time` computes fit in a word. -/
def ClockFits (s : Sched) : ClockCall → Prop
  | .join _ task => task.exist = true ∧ task.priority < 40 ∧ task.vrunTime = 0
  | .update p => ((s.tasks p).runTime + 1) * 1024 < wordSize ∧
      max (nextVrunTime (s.tasks p)) s.minVrunTime * taskPrioToWeight (s.tasks p).priority <
        wordSize

/-- All clocks stand at 0. -/
structure ClockInit (s : Sched) : Prop where
  priority : ∀ p, (s.tasks p).exist = true → (s.tasks p).priority < 40
  runTime : ∀ p, (s.tasks p).exist = true → (s.tasks p).runTime = 0
  vrunTime : ∀ p, (s.tasks p).exist = true → (s.tasks p).vrunTime = 0
  minVrunTime : s.minVrunTime = 0

/-- Any tasks of a CPU, any others that join later, and ticks for any of them. -/
def clockSystem : System Sched ClockCall where
  init := ClockInit
  step s c t := ClockFits s c ∧ clockStep s c = some t

/-! ## One tick -/

/-- The clock of a task is not ahead of `min_vrun_time`, and will not go back at the next tick. -/
structure TaskClock (task : SchedTask) (minVrunTime : Nat) : Prop where
  priority : task.priority < 40
  vrunTime : task.vrunTime ≤ minVrunTime
  next : (task.runTime + 1) * 1024 < wordSize → task.vrunTime ≤ nextVrunTime task

/-- What holds between the ticks. -/
structure ClockInv (s : Sched) : Prop where
  min : s.minVrunTime < clockBound
  task : ∀ p, (s.tasks p).exist = true → TaskClock (s.tasks p) s.minVrunTime

theorem TaskClock.mono {task : SchedTask} {m m' : Nat} (h : TaskClock task m) (hle : m ≤ m') :
    TaskClock task m' := ⟨h.priority, Nat.le_trans h.vrunTime hle, h.next⟩

/-- A clock that stands at 0. -/
theorem TaskClock.zero {task : SchedTask} (hpriority : task.priority < 40)
    (hzero : task.vrunTime = 0) (m : Nat) : TaskClock task m :=
  ⟨hpriority, hzero ▸ Nat.zero_le _, fun _ => hzero ▸ Nat.zero_le _⟩

/-- Scaling back and adding a tick makes up for both divisions. -/
theorem le_scaled_succ {w : Nat} (hw : 0 < w) (v : Nat) : v ≤ (v * w / 1024 + 1) * 1024 / w := by
  rw [Nat.le_div_iff_mul_le hw]
  have hdiv := Nat.div_add_mod (v * w) 1024
  have hmod := Nat.mod_lt (v * w) (show 0 < 1024 by decide)
  omega

/-- The clock at the next tick, if the product fits. -/
theorem nextVrunTime_eq {task : SchedTask} (hfit : (task.runTime + 1) * 1024 < wordSize) :
    nextVrunTime task = (task.runTime + 1) * 1024 / taskPrioToWeight task.priority := by
  have hadd : task.runTime + 1 < wordSize :=
    Nat.lt_of_le_of_lt (Nat.le_mul_of_pos_right _ (by decide)) hfit
  rw [nextVrunTime, taskPrioToWeight_default, add64_of_lt hadd, mul64, Nat.mod_eq_of_lt hfit]

/-- A task after a tick. -/
def tickedTask (task : SchedTask) (minVrunTime : Nat) : SchedTask :=
  let vrunTime := max (nextVrunTime task) minVrunTime
  { task with
    runTime := if vrunTime ≠ nextVrunTime task
      then mul64 vrunTime (taskPrioToWeight task.priority) / taskPrioToWeight defaultPriority
      else add64 task.runTime 1
    vrunTime := vrunTime }

/-- The clock does not go back at the tick after the next one either, whether it is raised to
`min_vrun_time` at the next one or not. -/
theorem le_nextVrunTime_ticked {task : SchedTask} {minVrunTime : Nat}
    (hpriority : task.priority < 40) (hfit : (task.runTime + 1) * 1024 < wordSize)
    (hfit' : max (nextVrunTime task) minVrunTime * taskPrioToWeight task.priority < wordSize)
    (hnext : ((tickedTask task minVrunTime).runTime + 1) * 1024 < wordSize) :
    (tickedTask task minVrunTime).vrunTime ≤ nextVrunTime (tickedTask task minVrunTime) := by
  have hweight : 0 < taskPrioToWeight task.priority :=
    Nat.lt_of_lt_of_le (by decide) (taskPrioToWeight_pos hpriority)
  rw [nextVrunTime_eq hnext]
  by_cases hclamp : max (nextVrunTime task) minVrunTime ≠ nextVrunTime task
  · have hrun : (tickedTask task minVrunTime).runTime =
        max (nextVrunTime task) minVrunTime * taskPrioToWeight task.priority / 1024 := by
      simp only [tickedTask, if_pos hclamp, taskPrioToWeight_default, mul64,
        Nat.mod_eq_of_lt hfit']
    rw [hrun]
    exact le_scaled_succ hweight _
  · have hadd : task.runTime + 1 < wordSize :=
      Nat.lt_of_le_of_lt (Nat.le_mul_of_pos_right _ (by decide)) hfit
    have hrun : (tickedTask task minVrunTime).runTime = task.runTime + 1 := by
      simp only [tickedTask, if_neg hclamp, add64_of_lt hadd]
    have hclock : (tickedTask task minVrunTime).vrunTime =
        (task.runTime + 1) * 1024 / taskPrioToWeight task.priority := by
      rw [← nextVrunTime_eq hfit]
      exact not_not.mp hclamp
    rw [hrun, hclock]
    exact Nat.div_le_div_right (Nat.mul_le_mul_right _ (Nat.le_succ _))

/-- A tick makes the clock of its task `min_vrun_time` and leaves the other tasks alone. -/
theorem clockStep_update {s t : Sched} {p : Slot} (h : ClockInv s)
    (hstep : clockStep s (.update p) = some t) : (s.tasks p).exist = true ∧
      t.tasks = Function.update s.tasks p (tickedTask (s.tasks p) s.minVrunTime) ∧
      t.minVrunTime = max (nextVrunTime (s.tasks p)) s.minVrunTime := by
  by_cases hexist : (s.tasks p).exist = true
  · rw [clockStep, if_pos hexist] at hstep
    have hupdate := taskUpdate_clocks (s := { s with runningTask := p }) (h.task p hexist).priority
      h.min
    rw [hupdate] at hstep
    cases hstep
    exact ⟨hexist, rfl, rfl⟩
  · rw [clockStep, if_neg hexist] at hstep
    cases hstep

theorem clockStep_join {s t : Sched} {p : Slot} {task : SchedTask}
    (hstep : clockStep s (.join p task) = some t) : (s.tasks p).exist = false ∧
      t.tasks = Function.update s.tasks p task ∧ t.minVrunTime = s.minVrunTime := by
  by_cases hexist : (s.tasks p).exist = true
  · rw [clockStep, if_pos hexist] at hstep
    cases hstep
  · rw [clockStep, if_neg hexist] at hstep
    cases hstep
    exact ⟨Bool.eq_false_of_not_eq_true hexist, rfl, rfl⟩

/-- The clock of the task that is charged. -/
theorem TaskClock.ticked {task : SchedTask} {m : Nat} (h : TaskClock task m)
    (hfit : (task.runTime + 1) * 1024 < wordSize)
    (hfit' : max (nextVrunTime task) m * taskPrioToWeight task.priority < wordSize) :
    TaskClock (tickedTask task m) (max (nextVrunTime task) m) :=
  ⟨h.priority, Nat.le_refl _, le_nextVrunTime_ticked h.priority hfit hfit'⟩

theorem ClockInit.inv {s : Sched} (h : ClockInit s) : ClockInv s where
  min := by
    rw [h.minVrunTime]
    decide
  task p hp := .zero (h.priority p hp) (h.vrunTime p hp) _

/-- No step takes a task away or puts a clock back. -/
structure ClocksLe (s t : Sched) : Prop where
  exist : ∀ p, (s.tasks p).exist = true → (t.tasks p).exist = true
  vrunTime : ∀ p, (s.tasks p).exist = true → (s.tasks p).vrunTime ≤ (t.tasks p).vrunTime
  min : s.minVrunTime ≤ t.minVrunTime

theorem ClocksLe.refl (s : Sched) : ClocksLe s s :=
  ⟨fun _ h => h, fun _ _ => Nat.le_refl _, Nat.le_refl _⟩

theorem ClocksLe.trans {s t u : Sched} (h : ClocksLe s t) (h' : ClocksLe t u) : ClocksLe s u :=
  ⟨fun p hp => h'.exist p (h.exist p hp),
    fun p hp => Nat.le_trans (h.vrunTime p hp) (h'.vrunTime p (h.exist p hp)),
    Nat.le_trans h.min h'.min⟩

/-- One step. -/
theorem ClockInv.step {s t : Sched} {c : ClockCall} (h : ClockInv s) (hfits : ClockFits s c)
    (hstep : clockStep s c = some t) : ClockInv t ∧ ClocksLe s t := by
  cases c with
  | join p task =>
      obtain ⟨hfree, htasks, hmin⟩ := clockStep_join hstep
      obtain ⟨-, hpriority, hzero⟩ := hfits
      have hother {q : Slot} (hq : (s.tasks q).exist = true) : t.tasks q = s.tasks q := by
        rw [htasks, Function.update_of_ne]
        rintro rfl
        rw [hfree] at hq
        cases hq
      refine ⟨⟨hmin ▸ h.min, fun q hq => ?_⟩, fun q hq => ?_, fun q hq => ?_,
        Nat.le_of_eq hmin.symm⟩
      · rw [hmin]
        rw [htasks] at hq ⊢
        by_cases hqp : q = p
        · rw [hqp, Function.update_self]
          exact .zero hpriority hzero _
        · rw [Function.update_of_ne hqp] at hq ⊢
          exact h.task q hq
      · rw [hother hq]
        exact hq
      · rw [hother hq]
  | update p =>
      obtain ⟨hexist, htasks, hmin⟩ := clockStep_update h hstep
      obtain ⟨hfit, hfit'⟩ := hfits
      have hclock := h.task p hexist
      have hle : s.minVrunTime ≤ t.minVrunTime := hmin ▸ Nat.le_max_right ..
      refine ⟨⟨?_, fun q hq => ?_⟩, fun q hq => ?_, fun q hq => ?_, hle⟩
      · rw [hmin]
        exact Nat.max_lt.mpr ⟨nextVrunTime_lt hclock.priority, h.min⟩
      all_goals
        rw [htasks]
        by_cases hqp : q = p
      · rw [hqp, Function.update_self, hmin]
        exact hclock.ticked hfit hfit'
      · rw [Function.update_of_ne hqp]
        rw [htasks, Function.update_of_ne hqp] at hq
        exact (h.task q hq).mono hle
      · rw [hqp, Function.update_self]
        exact hexist
      · rwa [Function.update_of_ne hqp]
      · rw [hqp, Function.update_self]
        exact Nat.le_trans hclock.vrunTime (Nat.le_max_right ..)
      · rw [Function.update_of_ne hqp]

/-! ## All ticks -/

theorem clockInv_of_reachable {s : Sched} (hs : clockSystem.Reachable s) : ClockInv s := by
  refine System.ReachableWhen.invariant (P := ClockInv) (fun s h => ClockInit.inv h) ?_ hs
  rintro s c t h - ⟨hfits, hstep⟩
  exact (h.step hfits hstep).1

/-- A whole run. -/
theorem clocksLe_of_steps {s t : Sched} (hs : clockSystem.Reachable s)
    (hrun : clockSystem.Steps s t) : ClocksLe s t := by
  induction hrun with
  | refl => exact .refl s
  | tail hrun hnext ih =>
      obtain ⟨c, hfits, hstep⟩ := hnext
      have hinv := clockInv_of_reachable (System.Steps.reachable hrun hs)
      exact ih.trans (hinv.step hfits hstep).2

/-- From any state `s` of a run to any later one `t`: `min_vrun_time` does not decrease, and of
each task of `s` the clock does not decrease and is at most `min_vrun_time`; when the task is
charged again in `t`, the clock computed then is not below the one that it had in `s`, to which
it may have been raised, and after that tick its clock is `min_vrun_time`. -/
theorem clocks_of_run {s t : Sched} (hs : clockSystem.Reachable s)
    (hrun : clockSystem.Steps s t) :
    s.minVrunTime ≤ t.minVrunTime ∧ ∀ p, (s.tasks p).exist = true →
      (s.tasks p).vrunTime ≤ (t.tasks p).vrunTime ∧ (t.tasks p).vrunTime ≤ t.minVrunTime ∧
        ∀ u, clockSystem.step t (.update p) u →
          (s.tasks p).vrunTime ≤ nextVrunTime (t.tasks p) ∧
            (u.tasks p).vrunTime = u.minVrunTime := by
  have hle := clocksLe_of_steps hs hrun
  have hinv := clockInv_of_reachable (System.Steps.reachable hrun hs)
  refine ⟨hle.min, fun p hp => ⟨hle.vrunTime p hp, ?_, ?_⟩⟩
  · exact (hinv.task p (hle.exist p hp)).vrunTime
  · rintro u ⟨⟨hfit, -⟩, hstep⟩
    obtain ⟨hexist, htasks, hmin⟩ := clockStep_update hinv hstep
    refine ⟨Nat.le_trans (hle.vrunTime p hp) ((hinv.task p hexist).next hfit), ?_⟩
    rw [htasks, Function.update_self, hmin]
    rfl

/-- Two tasks, of priority -20 and 19. -/
def twoClocks : Sched where
  tasks := fun p => ⟨p = 0 ∨ p = 1, 0, .ready, 0, if p = 0 then 0 else 39, 0, 0⟩
  links := ⟨fun _ => none, fun _ => none⟩
  minVrunTime := 0
  runningTasks := 0
  totalWeight := 0
  idleTask := 0
  runningTask := 0

instance (s : Sched) : (c : ClockCall) → Decidable (ClockFits s c)
  | .join _ _ => inferInstanceAs (Decidable (_ ∧ _))
  | .update _ => inferInstanceAs (Decidable (_ ∧ _))

/-- A call whose products fit. -/
def fittingStep (s : Sched) (c : ClockCall) : Option Sched :=
  if ClockFits s c then clockStep s c else none

theorem step_of_fittingStep {s t : Sched} {c : ClockCall} (h : fittingStep s c = some t) :
    clockSystem.step s c t := by
  unfold fittingStep at h
  split at h
  · next hfits => exact ⟨hfits, h⟩
  · cases h

/-- The heavy task is raised to the clock of the light one, which is charged once more; then the
heavy one is. -/
theorem twoClocks_clocks : ∃ s t u : Sched, clockSystem.Reachable s ∧
    fittingStep s (.update 1) = some t ∧ fittingStep t (.update 0) = some u ∧
    s.minVrunTime ≤ t.minVrunTime ∧ (s.tasks 0).vrunTime = 68 ∧ 68 ≤ (t.tasks 0).vrunTime ∧
    68 ≤ nextVrunTime (t.tasks 0) ∧ (u.tasks 0).vrunTime = u.minVrunTime := by
  have hinit : ClockInit twoClocks := by
    refine ⟨fun p _ => ?_, fun _ _ => rfl, fun _ _ => rfl, rfl⟩
    show (if p = 0 then 0 else 39) < 40
    split <;> decide
  have hrun : ((System.runWhen (fun _ _ => true) fittingStep twoClocks
      [.update 1, .update 0]).map fun s => ((s.tasks 0).exist, (s.tasks 0).vrunTime,
        ((fittingStep s (.update 1)).bind (fittingStep · (.update 0))).isSome)) =
      some (true, 68, true) := by
    decide +kernel
  have hboot : clockSystem.Reachable twoClocks := .init hinit
  obtain ⟨s, hreach, hview⟩ := hboot.exists_run (fun _ _ _ => step_of_fittingStep) hrun
  simp only [Prod.mk.injEq] at hview
  obtain ⟨hexist, hraised, hmore⟩ := hview
  obtain ⟨u, hmore⟩ := Option.isSome_iff_exists.mp hmore
  obtain ⟨t, ht, hu⟩ := Option.bind_eq_some_iff.mp hmore
  obtain ⟨hmin, hclocks⟩ := clocks_of_run hreach (.single ⟨_, step_of_fittingStep ht⟩)
  obtain ⟨hle, -, hcharged⟩ := hclocks 0 hexist
  obtain ⟨hnext, hnow⟩ := hcharged u (step_of_fittingStep hu)
  exact ⟨s, t, u, hreach, ht, hu, hmin, hraised, hraised ▸ hle, hraised ▸ hnext, hnow⟩

end ClayFigure
