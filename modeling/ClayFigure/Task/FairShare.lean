/-
# CPU time and weights

Tasks that are always ready, one timer tick after the other: `task_update` charges the tick
to the running task and `schedule` picks the next. `update_vrun_time` raises the clock of the
running task to `min_vrun_time`, and `update_min_vrun_time` then raises `min_vrun_time` to
the clock of the running task. So `min_vrun_time` is the greatest clock there is, the task
that was charged goes to the end of the list, and the tasks take turns whatever their weights
are.
-/

import Mathlib.Algebra.Order.Field.Basic
import Mathlib.Algebra.Order.Field.Rat
import Mathlib.Data.List.Rotate
import Mathlib.Data.Rat.Cast.Order
import Mathlib.Tactic.FieldSimp
import Mathlib.Tactic.Linarith
import Mathlib.Tactic.NormNum
import Mathlib.Tactic.Ring
import ClayFigure.Task.ScheduleLists

namespace ClayFigure

open ClayFigure.Math

/-! ## The code -/

/-- `task_prio_to_weight`; the words behind the table stand as 0. -/
def taskPrioToWeight (priority : Nat) : Nat :=
  [88761, 71755, 56483, 46273, 36291, 29154, 23254, 18705, 14949, 11916,
    9548, 7620, 6100, 4904, 3906, 3121, 2501, 1991, 1586, 1277,
    1024, 820, 655, 526, 423, 335, 272, 215, 172, 137,
    110, 87, 70, 56, 45, 36, 29, 23, 18, 15].getD priority 0

/-- The CPU, and how many ticks each task was charged. -/
structure Ticked where
  sched : Sched
  charged : Slot → Nat

/-- One tick of the timer. -/
def tick (taskIpcCheck : Slot → Bool) (c : Ticked) : Option Ticked := do
  let s ← schedStep taskPrioToWeight c.sched (.timer taskIpcCheck)
  return ⟨s, Function.update c.charged c.sched.runningTask (c.charged c.sched.runningTask + 1)⟩

/-- One tick for each of the answers `task_ipc_check` gives. -/
def ticks : List (Slot → Bool) → Ticked → Option Ticked
  | [], c => some c
  | taskIpcCheck :: rest, c => do ticks rest (← tick taskIpcCheck c)

/-- No list but `task_list` has members. -/
def onlyReady (queue : List Slot) : SchedList → List Slot
  | .taskList => queue
  | _ => []

/-- The tasks of `order` take the CPU in this order, and nothing else happens. -/
structure InTurn (s : Sched) (order : List Slot) : Prop where
  running : order.head? = some s.runningTask
  nodup : order.Nodup
  lists : s.links.Holds s.Used (onlyReady order.tail)
  status : (s.tasks s.runningTask).status = .running
  preemptCount : ∀ p ∈ order, (s.tasks p).preemptCount = 0

/-- Tasks that are always ready, before the first tick. -/
structure AlwaysReady (s : Sched) (order : List Slot) : Prop extends InTurn s order where
  priority : ∀ p ∈ order, (s.tasks p).priority < 40
  runTime : ∀ p ∈ order, (s.tasks p).runTime = 0
  vrunTime : ∀ p ∈ order, (s.tasks p).vrunTime = 0
  minVrunTime : s.minVrunTime = 0

/-- Two tasks with these ticks and weights have had their shares of the CPU. -/
def Fair (n₁ w₁ n₂ w₂ : Nat) : Prop :=
  |(n₁ : ℚ) / w₁ - n₂ / w₂| ≤ 1 / w₁ + 1 / w₂ + 1 / 1024

/-- The weight of a task. -/
def weightOf (s : Sched) (p : Slot) : Nat := taskPrioToWeight (s.tasks p).priority

/-- How often it is the turn of the task at place `i` of `k` in `n` ticks. -/
def turns (k n i : Nat) : Nat := (n + (k - 1 - i)) / k

/-! ## The clocks -/

theorem taskPrioToWeight_pos {priority : Nat} (h : priority < 40) :
    15 ≤ taskPrioToWeight priority := by
  revert priority
  decide

theorem update_onlyReady (queue queue' : List Slot) :
    Function.update (onlyReady queue) .taskList queue' = onlyReady queue' := by
  funext l
  cases l with
  | taskList => simp [onlyReady]
  | _ => simp [onlyReady]

/-- No clock gets further than this. -/
abbrev clockBound : Nat := 0x2000000000000000

/-- The clock that `update_vrun_time` computes of a task at its next tick, before it looks at
`min_vrun_time`. -/
def nextVrunTime (task : SchedTask) : Nat :=
  mul64 (add64 task.runTime 1) (taskPrioToWeight defaultPriority) / taskPrioToWeight task.priority

theorem taskPrioToWeight_default : taskPrioToWeight defaultPriority = 1024 := by decide

theorem nextVrunTime_lt {task : SchedTask} (hpriority : task.priority < 40) :
    nextVrunTime task < clockBound := by
  have hweight := taskPrioToWeight_pos hpriority
  have hmul : mul64 (add64 task.runTime 1) (taskPrioToWeight defaultPriority) < wordSize :=
    Nat.mod_lt _ (by decide)
  apply Nat.div_lt_of_lt_mul
  unfold wordSize at hmul
  unfold clockBound
  omega

/-- What `task_update` makes of the clocks. -/
theorem taskUpdate_clocks {s : Sched} (hpriority : (s.tasks s.runningTask).priority < 40)
    (hmin : s.minVrunTime < clockBound) :
    let task := s.tasks s.runningTask
    let vrunTime := max (nextVrunTime task) s.minVrunTime
    s.taskUpdate taskPrioToWeight = some
      { s.setTask s.runningTask { task with
          runTime := if vrunTime ≠ nextVrunTime task
            then mul64 vrunTime (taskPrioToWeight task.priority) / taskPrioToWeight defaultPriority
            else add64 task.runTime 1
          vrunTime := vrunTime } with minVrunTime := vrunTime } := by
  have hweight := taskPrioToWeight_pos hpriority
  have hvlt := nextVrunTime_lt hpriority
  have hhalf {x : Nat} (hx : x < clockBound) : x < halfWord := Nat.lt_trans hx (by decide)
  have hmax : max (nextVrunTime (s.tasks s.runningTask)) s.minVrunTime < clockBound :=
    Nat.max_lt.mpr ⟨hvlt, hmin⟩
  have htime := maxVruntime_eq_max (hhalf hvlt) (hhalf hmin)
  have hminTime := maxVruntime_eq_max (hhalf hmin) (hhalf hmax)
  rw [Nat.max_eq_right (Nat.le_max_right ..)] at hminTime
  have hne : ¬ (taskPrioToWeight (s.tasks s.runningTask).priority = 0 ∨
      taskPrioToWeight defaultPriority = 0) := by
    rw [taskPrioToWeight_default]
    omega
  have hnext : mul64 (add64 (s.tasks s.runningTask).runTime 1) (taskPrioToWeight defaultPriority) /
      taskPrioToWeight (s.tasks s.runningTask).priority =
        nextVrunTime (s.tasks s.runningTask) := rfl
  simp only [Sched.taskUpdate, if_neg hne, hnext, htime, hminTime]

/-- `task_update` makes the clock of the running task the greatest. -/
theorem taskUpdate_eq {s : Sched} (hpriority : (s.tasks s.runningTask).priority < 40)
    (hmin : s.minVrunTime < clockBound) :
    ∃ runTime vrunTime, s.minVrunTime ≤ vrunTime ∧ vrunTime < clockBound ∧
      s.taskUpdate taskPrioToWeight = some
        { s.setTask s.runningTask { s.tasks s.runningTask with
            runTime := runTime, vrunTime := vrunTime } with minVrunTime := vrunTime } :=
  ⟨_, _, Nat.le_max_right .., Nat.max_lt.mpr ⟨nextVrunTime_lt hpriority, hmin⟩,
    taskUpdate_clocks hpriority hmin⟩

/-! ## One tick -/

/-- The running task goes to the end, the first in the list runs. -/
theorem schedule_eq {s : Sched} {p : Slot} {queue : List Slot} (h : InTurn s (p :: queue))
    (hclock : ∀ x ∈ queue, isBefore (s.tasks p).vrunTime (s.tasks x).vrunTime = false)
    (taskIpcCheck : Slot → Bool) :
    ∃ t, s.schedule taskPrioToWeight taskIpcCheck = some t ∧ InTurn t (queue ++ [p]) ∧
      t.minVrunTime = s.minVrunTime ∧ ∀ x, (t.tasks x).priority = (s.tasks x).priority ∧
        (t.tasks x).vrunTime = (s.tasks x).vrunTime := by
  obtain rfl : p = s.runningTask := Option.some.inj h.running
  have hnodup := h.nodup
  have hlists : s.links.Holds s.Used (onlyReady queue) := h.lists
  have hused : s.Used .taskList := trivial
  have hloose : Heap.Loose s.Used (onlyReady queue) s.runningTask := by
    intro l _ hmem
    cases l with
    | taskList => exact (List.nodup_cons.mp hnodup).1 hmem
    | _ => cases hmem
  -- The running task is inserted behind all others.
  obtain ⟨pre, post, k, hsplit, hplace, hk, hinsert⟩ :=
    Sched.taskListInsert_eq taskPrioToWeight hlists hused hloose
  obtain rfl : post = [] := by
    cases post with
    | nil => rfl
    | cons x post =>
        have hx : x ∈ queue := by
          change x ∈ onlyReady queue .taskList
          rw [hsplit]
          simp
        simpa [hclock x hx] using hplace.post x rfl
  rw [List.append_nil] at hsplit
  rw [update_onlyReady, ← hsplit] at hk
  -- No task waits; the first of the list is taken out.
  obtain ⟨q, rest, hrest⟩ : ∃ q rest, queue ++ [s.runningTask] = q :: rest :=
    List.exists_cons_of_ne_nil (by simp)
  generalize hs' : ({ (s.setLinks k).setStatus s.runningTask .ready with
    runningTasks := add64 s.runningTasks 1
    totalWeight := add64 s.totalWeight
      (taskPrioToWeight (s.tasks s.runningTask).priority) } : Sched) = s' at hinsert
  have hk : s'.links.Holds s.Used (onlyReady (queue ++ [s.runningTask])) := by
    rw [← hs']
    exact hk
  obtain ⟨k', hk', hnext⟩ := Sched.getNextTask_eq taskPrioToWeight hk hused hrest
  rw [update_onlyReady] at hk'
  have hpreempt : ¬ 0 < (s.tasks s.runningTask).preemptCount := by
    rw [h.preemptCount _ (List.mem_cons_self ..)]
    omega
  obtain ⟨t, ht, hlinks, htasks, hmin, hrunning⟩ :
      ∃ t, s.schedule taskPrioToWeight taskIpcCheck = some t ∧ t.links = k' ∧
        t.tasks = ((s.setStatus s.runningTask .ready).setStatus q .running).tasks ∧
        t.minVrunTime = s.minVrunTime ∧ t.runningTask = q := by
    have hnone := Sched.checkWaitingList_nil taskPrioToWeight hk
      (show s.Used .waitingList from trivial) rfl taskIpcCheck
    simp only [Sched.schedule, if_neg hpreempt, Sched.readyUp, Sched.putAway, h.status, hinsert,
      Option.bind_eq_bind, Option.bind_some, hnone, hnext]
    rw [← hs']
    exact ⟨_, rfl, rfl, rfl, rfl, rfl⟩
  have htask (x : Slot) : (t.tasks x).priority = (s.tasks x).priority ∧
      (t.tasks x).vrunTime = (s.tasks x).vrunTime ∧
        (t.tasks x).preemptCount = (s.tasks x).preemptCount ∧
          (t.tasks x).exist = (s.tasks x).exist := by
    rw [htasks]
    simp only [Sched.setStatus, Sched.setTask, Function.update_apply]
    split_ifs with hq hp hp <;> simp_all
  refine ⟨t, ht, ?_, hmin, fun x => ⟨(htask x).1, (htask x).2.1⟩⟩
  have husedEq (l : SchedList) : s.Used l ↔ t.Used l := by
    cases l with
    | exitedChildList x => simp [Sched.Used, (htask x).2.2.2]
    | _ => exact Iff.rfl
  refine ⟨by rw [hrest, hrunning]; rfl, ?_, ?_, ?_, fun x hx => ?_⟩
  · rw [List.nodup_append_comm]
    exact hnodup
  · rw [hlinks, hrest]
    exact hk'.congr_used husedEq
  · rw [hrunning, htasks]
    simp [Sched.setStatus, Sched.setTask]
  · rw [(htask x).2.2.1]
    apply h.preemptCount
    simpa [or_comm] using hx

/-- The clocks are in order. -/
structure Clocks (s : Sched) (order : List Slot) : Prop where
  min : s.minVrunTime < clockBound
  vrunTime : ∀ p ∈ order, (s.tasks p).vrunTime ≤ s.minVrunTime
  priority : ∀ p ∈ order, (s.tasks p).priority < 40

/-- A tick charges the first task and puts it behind the others. -/
theorem tick_eq {c : Ticked} {p : Slot} {queue : List Slot} (h : InTurn c.sched (p :: queue))
    (hclocks : Clocks c.sched (p :: queue)) (taskIpcCheck : Slot → Bool) :
    ∃ t, tick taskIpcCheck c = some t ∧ InTurn t.sched (queue ++ [p]) ∧
      Clocks t.sched (queue ++ [p]) ∧
      t.charged = Function.update c.charged p (c.charged p + 1) := by
  obtain rfl : p = c.sched.runningTask := Option.some.inj h.running
  obtain ⟨runTime, vrunTime, hle, hlt, hupdate⟩ :=
    taskUpdate_eq (hclocks.priority _ (List.mem_cons_self ..)) hclocks.min
  generalize hs : ({ c.sched.setTask c.sched.runningTask
    { c.sched.tasks c.sched.runningTask with runTime := runTime, vrunTime := vrunTime } with
      minVrunTime := vrunTime } : Sched) = s at hupdate
  have htask (x : Slot) : (s.tasks x).status = (c.sched.tasks x).status ∧
      (s.tasks x).preemptCount = (c.sched.tasks x).preemptCount ∧
        (s.tasks x).priority = (c.sched.tasks x).priority ∧
          (s.tasks x).exist = (c.sched.tasks x).exist ∧
            (s.tasks x).vrunTime =
              if x = c.sched.runningTask then vrunTime else (c.sched.tasks x).vrunTime := by
    rw [← hs]
    simp only [Sched.setTask, Function.update_apply]
    split_ifs with hx
    · rw [hx]
      exact ⟨rfl, rfl, rfl, rfl, rfl⟩
    · exact ⟨rfl, rfl, rfl, rfl, rfl⟩
  have hrunning : s.runningTask = c.sched.runningTask := by
    rw [← hs]
    rfl
  have hminTime : s.minVrunTime = vrunTime := by rw [← hs]
  have hturn : InTurn s (c.sched.runningTask :: queue) := by
    refine ⟨by rw [hrunning]; rfl, h.nodup, ?_, ?_, fun x hx => ?_⟩
    · have hlinks : s.links = c.sched.links := by
        rw [← hs]
        rfl
      rw [hlinks]
      refine h.lists.congr_used fun l => ?_
      cases l with
      | exitedChildList x => simp [Sched.Used, (htask x).2.2.2.1]
      | _ => exact Iff.rfl
    · rw [hrunning, (htask _).1, h.status]
    · rw [(htask x).2.1, h.preemptCount x hx]
  have hclock : ∀ x ∈ c.sched.runningTask :: queue, (s.tasks x).vrunTime ≤ vrunTime := by
    intro x hx
    rw [(htask x).2.2.2.2]
    split
    · exact Nat.le_refl _
    · exact Nat.le_trans (hclocks.vrunTime x hx) hle
  have hhalf {v : Nat} (hv : v ≤ vrunTime) : v < halfWord :=
    Nat.lt_of_le_of_lt hv (Nat.lt_trans hlt (by decide))
  obtain ⟨t, ht, hturn', hmin, hkeep⟩ := schedule_eq hturn (fun x hx => by
    rw [isBefore_eq_lt (hhalf (hclock _ (List.mem_cons_self ..)))
      (hhalf (hclock x (List.mem_cons_of_mem _ hx))), (htask c.sched.runningTask).2.2.2.2,
      if_pos rfl]
    exact decide_eq_false (Nat.not_lt.mpr (hclock x (List.mem_cons_of_mem _ hx)))) taskIpcCheck
  have hmem {x : Slot} (hx : x ∈ queue ++ [c.sched.runningTask]) :
      x ∈ c.sched.runningTask :: queue := by
    simpa [or_comm] using hx
  refine ⟨⟨t, Function.update c.charged c.sched.runningTask (c.charged c.sched.runningTask + 1)⟩,
    ?_, hturn', ⟨?_, fun x hx => ?_, fun x hx => ?_⟩, rfl⟩
  · simp [tick, schedStep, hupdate, ht]
  · rw [hmin, hminTime]
    exact hlt
  · rw [hmin, hminTime, (hkeep x).2]
    exact hclock x (hmem hx)
  · rw [(hkeep x).1, (htask x).2.2.1]
    exact hclocks.priority x (hmem hx)

/-! ## All ticks -/

/-- One more tick is one more turn for the task whose turn it is. -/
theorem turns_succ {k i : Nat} (hi : i < k) (n : Nat) :
    turns k (n + 1) i = turns k n i + if n % k = i then 1 else 0 := by
  have hsum : n + 1 + (k - 1 - i) = n + (k - 1 - i) + 1 := by omega
  unfold turns
  rw [hsum, Nat.succ_div]
  congr 1
  have hdvd : k ∣ n + (k - 1 - i) + 1 ↔ n % k = i := by
    have hlt : n % k < k := Nat.mod_lt _ (by omega)
    have hdiv : n + (k - 1 - i) + 1 = k * (n / k) + (n % k + k - i) := by
      have := Nat.div_add_mod n k
      omega
    rw [hdiv, Nat.dvd_add_right (Nat.dvd_mul_right ..)]
    constructor
    · intro hdvd
      have := Nat.eq_of_dvd_of_lt_two_mul (by omega) hdvd (by omega)
      omega
    · intro heq
      rw [heq, Nat.add_sub_cancel_left]
  simp only [hdvd]

theorem turns_zero {k i : Nat} (hi : i < k) : turns k 0 i = 0 := by
  unfold turns
  exact Nat.div_eq_of_lt (by omega)

/-- The tasks take turns. -/
theorem ticks_eq {order : List Slot} (answers : List (Slot → Bool)) {c : Ticked} {n : Nat}
    (hne : order ≠ []) (hnodup : order.Nodup) (h : InTurn c.sched (order.rotate n))
    (hclocks : Clocks c.sched (order.rotate n))
    (hcharged : ∀ i (hi : i < order.length), c.charged order[i] = turns order.length n i) :
    ∃ t, ticks answers c = some t ∧
      ∀ i (hi : i < order.length),
        t.charged order[i] = turns order.length (n + answers.length) i := by
  induction answers generalizing c n with
  | nil => exact ⟨c, rfl, hcharged⟩
  | cons taskIpcCheck rest ih =>
      have hpos : 0 < order.length := List.length_pos_iff.mpr hne
      obtain ⟨p, queue, hcons⟩ : ∃ p queue, order.rotate n = p :: queue :=
        List.exists_cons_of_ne_nil (by simpa using hne)
      have hturnLt : n % order.length < order.length := Nat.mod_lt _ hpos
      have hp : order[n % order.length] = p := by
        have hhead := List.getElem_rotate order n 0 (by simpa using hpos)
        simpa [hcons] using hhead.symm
      have hrotate : order.rotate (n + 1) = queue ++ [p] := by
        rw [← List.rotate_rotate, hcons, List.rotate_cons_succ, List.rotate_zero]
      rw [hcons] at h hclocks
      obtain ⟨t, ht, hturn, hclocks', hupdate⟩ := tick_eq h hclocks taskIpcCheck
      rw [← hrotate] at hturn hclocks'
      obtain ⟨u, hu, hall⟩ := ih hturn hclocks' fun i hi => by
        rw [hupdate, turns_succ hi, Function.update_apply, ← hp]
        simp only [hnodup.getElem_inj_iff, hcharged _ hturnLt, hcharged i hi]
        by_cases hturn : n % order.length = i
        · simp [hturn]
        · simp [hturn, Ne.symm hturn]
      refine ⟨u, by simp [ticks, ht, hu], fun i hi => ?_⟩
      rw [hall i hi, List.length_cons]
      congr 1
      omega

theorem AlwaysReady.ticks {s : Sched} {order : List Slot} (h : AlwaysReady s order)
    (answers : List (Slot → Bool)) :
    ∃ t, ticks answers ⟨s, fun _ => 0⟩ = some t ∧ ∀ i (hi : i < order.length),
      t.charged order[i] = turns order.length answers.length i := by
  have hne : order ≠ [] := by
    rintro rfl
    simpa using h.running
  have hclocks : Clocks s order := by
    refine ⟨by rw [h.minVrunTime]; decide, fun p hp => ?_, h.priority⟩
    rw [h.vrunTime p hp]
    exact Nat.zero_le _
  obtain ⟨t, ht, hall⟩ := ticks_eq (n := 0) (c := ⟨s, fun _ => 0⟩) answers
    hne h.nodup
    (by rw [List.rotate_zero]; exact h.toInTurn) (by rw [List.rotate_zero]; exact hclocks)
    fun i hi => (turns_zero hi).symm
  refine ⟨t, ht, fun i hi => ?_⟩
  rw [hall i hi, Nat.zero_add]

/-! ## Shares -/

/-- The bound without fractions. -/
theorem fair_iff {n₁ w₁ n₂ w₂ : Nat} (hw₁ : 0 < w₁) (hw₂ : 0 < w₂) :
    Fair n₁ w₁ n₂ w₂ ↔
      1024 * |(n₁ : ℤ) * w₂ - n₂ * w₁| ≤ 1024 * (w₁ + w₂) + w₁ * w₂ := by
  have h₁ : (0 : ℚ) < w₁ := by exact_mod_cast hw₁
  have h₂ : (0 : ℚ) < w₂ := by exact_mod_cast hw₂
  have hdiff : (n₁ : ℚ) / w₁ - n₂ / w₂ = (n₁ * w₂ - n₂ * w₁) / (w₁ * w₂) := by
    field_simp
  have hbound : (1 : ℚ) / w₁ + 1 / w₂ + 1 / 1024 =
      (1024 * (w₁ + w₂) + w₁ * w₂) / 1024 / (w₁ * w₂) := by
    field_simp
    ring
  unfold Fair
  rw [hdiff, hbound, abs_div, abs_of_pos (mul_pos h₁ h₂), div_le_div_iff_of_pos_right
    (mul_pos h₁ h₂), le_div_iff₀ (by norm_num), mul_comm]
  exact_mod_cast Iff.rfl

/-- Places in a round differ by one turn at most. -/
theorem turns_le_succ {k i j : Nat} (hi : i < k) (hj : j < k) (n : Nat) :
    turns k n i ≤ turns k n j + 1 := by
  unfold turns
  rw [← Nat.add_div_right _ (by omega)]
  exact Nat.div_le_div_right (by omega)

/-- Tasks of one weight have had their shares at every time. -/
theorem fair_of_weight_eq {k i j w : Nat} (hi : i < k) (hj : j < k) (hw : 0 < w) (n : Nat) :
    Fair (turns k n i) w (turns k n j) w := by
  have hle : |(turns k n i : ℤ) - turns k n j| ≤ 1 := by
    have hij := turns_le_succ hi hj n
    have hji := turns_le_succ hj hi n
    rw [abs_le]
    omega
  rw [fair_iff hw hw, ← sub_mul, abs_mul, Nat.abs_cast]
  have hmul : |(turns k n i : ℤ) - turns k n j| * w ≤ 1 * w :=
    mul_le_mul_of_nonneg_right hle (Int.natCast_nonneg w)
  nlinarith [Int.natCast_nonneg w]

theorem fair_comm {n₁ w₁ n₂ w₂ : Nat} : Fair n₁ w₁ n₂ w₂ ↔ Fair n₂ w₂ n₁ w₁ := by
  unfold Fair
  rw [abs_sub_comm, add_comm (1 / (w₁ : ℚ))]

/-- With another weight a task has not had its share after enough rounds. -/
theorem not_fair_of_weight_lt {k i j n w₁ w₂ : Nat} (hj : j < k) (hw₁ : 0 < w₁)
    (hlt : w₁ < w₂) (hn : 2 * w₁ + w₂ + w₁ * w₂ < n / k) :
    ¬ Fair (turns k n i) w₁ (turns k n j) w₂ := by
  rw [fair_iff hw₁ (Nat.lt_trans hw₁ hlt), not_le]
  have hmany : n / k ≤ turns k n i := Nat.div_le_div_right (Nat.le_add_right ..)
  have hfew : turns k n j ≤ n / k + 1 := by
    unfold turns
    rw [← Nat.add_div_right _ (by omega)]
    exact Nat.div_le_div_right (by omega)
  have habs := le_abs_self ((turns k n i : ℤ) * w₂ - turns k n j * w₁)
  zify at hmany hfew hn hlt hw₁
  generalize (turns k n i : ℤ) = n₁ at *
  generalize (turns k n j : ℤ) = n₂ at *
  generalize ((n : ℤ) / k) = m at *
  have hprod : (0 : ℤ) ≤ w₁ * w₂ := Int.natCast_nonneg (w₁ * w₂)
  have hm : 0 ≤ m := by linarith
  have hfirst : m * (w₁ + 1) ≤ n₁ * w₂ :=
    calc m * (w₁ + 1) ≤ m * w₂ := mul_le_mul_of_nonneg_left hlt hm
      _ ≤ n₁ * w₂ := mul_le_mul_of_nonneg_right hmany (Int.natCast_nonneg w₂)
  have hsecond : n₂ * w₁ ≤ (m + 1) * w₁ := mul_le_mul_of_nonneg_right hfew (Int.natCast_nonneg w₁)
  linarith

theorem AlwaysReady.weightOf_pos {s : Sched} {order : List Slot} (h : AlwaysReady s order)
    {p : Slot} (hp : p ∈ order) : 0 < weightOf s p :=
  Nat.lt_of_lt_of_le (by decide) (taskPrioToWeight_pos (h.priority p hp))

/-- Among tasks that are always ready, two have had their shares of the CPU exactly when
their turns, which do not depend on the weights, are within the bound. -/
theorem ticks_fair_iff {s : Sched} {order : List Slot} (h : AlwaysReady s order)
    (answers : List (Slot → Bool)) :
    ∃ t, ticks answers ⟨s, fun _ => 0⟩ = some t ∧
      ∀ i j (hi : i < order.length) (hj : j < order.length),
        Fair (t.charged order[i]) (weightOf s order[i])
            (t.charged order[j]) (weightOf s order[j]) ↔
          1024 * |(turns order.length answers.length i : ℤ) * weightOf s order[j] -
              turns order.length answers.length j * weightOf s order[i]| ≤
            1024 * (weightOf s order[i] + weightOf s order[j]) +
              weightOf s order[i] * weightOf s order[j] := by
  obtain ⟨t, ht, hall⟩ := h.ticks answers
  refine ⟨t, ht, fun i j hi hj => ?_⟩
  rw [hall i hi, hall j hj]
  exact fair_iff (h.weightOf_pos (List.getElem_mem hi)) (h.weightOf_pos (List.getElem_mem hj))

/-- Between tasks of one weight the shares are kept. -/
theorem ticks_fair_of_weight_eq {s : Sched} {order : List Slot} (h : AlwaysReady s order)
    {i j : Nat} (hi : i < order.length) (hj : j < order.length)
    (heq : weightOf s order[i] = weightOf s order[j]) (answers : List (Slot → Bool)) :
    ∃ t, ticks answers ⟨s, fun _ => 0⟩ = some t ∧
      Fair (t.charged order[i]) (weightOf s order[i])
        (t.charged order[j]) (weightOf s order[j]) := by
  obtain ⟨t, ht, hall⟩ := h.ticks answers
  refine ⟨t, ht, ?_⟩
  rw [hall i hi, hall j hj, ← heq]
  exact fair_of_weight_eq hi hj (h.weightOf_pos (List.getElem_mem hi)) answers.length

/-- Between tasks of different weights the shares are missed from some tick on. -/
theorem ticks_not_fair {s : Sched} {order : List Slot} (h : AlwaysReady s order) {i j : Nat}
    (hi : i < order.length) (hj : j < order.length)
    (hne : weightOf s order[i] ≠ weightOf s order[j]) :
    ∃ n, ∀ answers : List (Slot → Bool), n ≤ answers.length →
      ∃ t, ticks answers ⟨s, fun _ => 0⟩ = some t ∧
        ¬ Fair (t.charged order[i]) (weightOf s order[i])
          (t.charged order[j]) (weightOf s order[j]) := by
  have hpos : 0 < order.length := by omega
  refine ⟨order.length * (2 * (weightOf s order[i] + weightOf s order[j]) +
    weightOf s order[i] * weightOf s order[j] + 1), fun answers hn => ?_⟩
  have hrounds := (Nat.le_div_iff_mul_le hpos).mpr (Nat.mul_comm .. ▸ hn)
  obtain ⟨t, ht, hall⟩ := h.ticks answers
  refine ⟨t, ht, ?_⟩
  rw [hall i hi, hall j hj]
  rcases Nat.lt_or_gt_of_ne hne with hlt | hgt
  · exact not_fair_of_weight_lt hj (h.weightOf_pos (List.getElem_mem hi)) hlt (by omega)
  · rw [fair_comm]
    refine not_fair_of_weight_lt hi (h.weightOf_pos (List.getElem_mem hj)) hgt ?_
    rw [Nat.mul_comm (weightOf s order[j])]
    omega

/-- Two tasks, of priority -20 and 19, and the idle task, which is blocked. -/
theorem exists_twoReady :
    ∃ s, AlwaysReady s [0, 1] ∧ weightOf s 0 = 88761 ∧ weightOf s 1 = 15 := by
  have hlists := Heap.Holds.initLists Slot [SchedList.taskList, .waitingList,
    .exitedChildList 0, .exitedChildList 1, .exitedChildList 2] (by decide)
  obtain ⟨k, -, hk⟩ := hlists.listAppend (l := .taskList) (t := 1) (by simp) (by simp [Heap.Loose])
  refine ⟨⟨fun p => ⟨p = 0 ∨ p = 1 ∨ p = 2, 0,
      if p = 0 then .running else if p = 1 then .ready else .blocked, 0,
      if p = 0 then 0 else if p = 1 then 39 else 40, 0, 0⟩, k, 0, 1, 15, 2, 0⟩,
    ⟨⟨rfl, by decide, ?_, rfl, fun _ _ => rfl⟩, ?_, fun _ _ => rfl, fun _ _ => rfl, rfl⟩,
    rfl, rfl⟩
  · have hcontents : Function.update (fun _ => []) SchedList.taskList ([] ++ [(1 : Slot)]) =
        onlyReady [1] := by
      funext l
      cases l <;> simp [onlyReady]
    rw [hcontents] at hk
    refine hk.congr_used fun l => ?_
    cases l with
    | exitedChildList p => simp [Sched.Used]
    | _ => simp [Sched.Used]
  · simp

/-- Four ticks are two for each task. -/
theorem twoReady_unfair :
    ∃ s t, AlwaysReady s [0, 1] ∧
      ticks (List.replicate 4 fun _ => false) ⟨s, fun _ => 0⟩ = some t ∧
        ¬ Fair (t.charged 0) (weightOf s 0) (t.charged 1) (weightOf s 1) := by
  obtain ⟨s, h, hfirst, hsecond⟩ := exists_twoReady
  obtain ⟨t, ht, hall⟩ := ticks_fair_iff h (List.replicate 4 fun _ => false)
  have hfair := hall 0 1 (by decide) (by decide)
  simp only [List.getElem_cons_zero, List.getElem_cons_succ] at hfair
  refine ⟨s, t, h, ht, ?_⟩
  rw [hfair, hfirst, hsecond]
  decide

/-- The shares are not kept for every set of tasks and every number of ticks. -/
theorem ticks_unfair : ¬ ∀ s order answers t, AlwaysReady s order →
    ticks answers ⟨s, fun _ => 0⟩ = some t → ∀ p ∈ order, ∀ q ∈ order,
      Fair (t.charged p) (weightOf s p) (t.charged q) (weightOf s q) := by
  intro hall
  obtain ⟨s, h, hfirst, hsecond⟩ := exists_twoReady
  obtain ⟨t, ht, hturns⟩ := h.ticks (List.replicate 4 fun _ => false)
  have hfair := hall s _ _ t h ht 0 (by simp) 1 (by simp)
  have h₀ := hturns 0 (by decide)
  have h₁ := hturns 1 (by decide)
  simp only [List.getElem_cons_zero, List.getElem_cons_succ] at h₀ h₁
  rw [h₀, h₁, hfirst, hsecond, fair_iff (by decide) (by decide)] at hfair
  revert hfair
  decide

end ClayFigure
