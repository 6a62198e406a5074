/-
# How long a ready task waits

A ready task waits for the running task and for those in front of it, and a task of a smaller
clock that wakes up may still get in front. No other can: `task_update` makes the clock of the
task it charges the greatest there is, and `task_list_insert` puts a task behind those of the same
clock. So with every tick that switches tasks one rival is gone for good, and only new tasks,
whose clocks stand at 0, come in addition.
-/

import ClayFigure.Task.SchedRuns

namespace ClayFigure

open ClayFigure.Math

namespace Sched

/-- No clock is ahead of `min_vrun_time`. -/
structure Clocks (s : Sched) : Prop where
  min : s.minVrunTime < halfWord
  le : ∀ p, (s.tasks p).exist = true → s.clock p ≤ s.minVrunTime

/-- The tasks that may get the CPU before a ready task: the one that runs, and all that are alive
and whose clocks are not ahead. -/
def rivals (s : Sched) (p : Slot) : Finset Slot :=
  Finset.univ.filter fun q => q ≠ p ∧ (s.tasks q).exist = true ∧ (s.tasks q).status ≠ .died ∧
    (q = s.runningTask ∨ s.clock q ≤ s.clock p)

/-- The rivals of `p` in its place of the queue: of the ready ones only those in front of it, of
the others those of smaller clocks. -/
def ahead (s : Sched) (queue : List Slot) (p : Slot) : Finset Slot :=
  (insert s.runningTask (inFront queue p).toFinset ∪
    ((Finset.univ.filter fun q => s.clock q < s.clock p) \ queue.toFinset)).filter fun q =>
      (s.tasks q).exist = true ∧ (s.tasks q).status ≠ .died

/-- The ghost state of a run: what the lists hold. -/
structure Waiting (weight : Nat → Nat) (s : Sched) (contents : SchedList → List Slot) : Prop where
  placed : s.Placed weight True contents [s.runningTask]
  running : (s.tasks s.runningTask).status = .running
  clocks : s.Clocks

end Sched

/-- A tick at which the running task can be preempted. -/
def switches : Sched × SchedCall → Bool
  | (s, .timer _) => (s.tasks s.runningTask).preemptCount = 0
  | _ => false

/-- The creation of a task. -/
def creates : Sched × SchedCall → Bool
  | (_, .create _) => true
  | _ => false

variable {weight : Nat → Nat} {s t u : Sched} {contents : SchedList → List Slot}
  {xs ys : List Slot} {c : SchedCall} {taskIpcCheck : Slot → Bool} {p q : Slot}

namespace Sched

/-! ## The clocks -/

theorem Clocks.near (h : s.Clocks) : s.Near := fun p _ hp _ =>
  ((h.le p hp).trans_lt h.min).trans_le (Nat.le_add_left ..)

/-- The clocks do not change, nor which tasks there are. -/
theorem Clocks.congr (h : s.Clocks) (hmin : t.minVrunTime = s.minVrunTime)
    (htask : ∀ p, t.tasks p = { s.tasks p with status := (t.tasks p).status }) : t.Clocks := by
  refine ⟨hmin ▸ h.min, fun p hp => ?_⟩
  unfold clock
  rw [htask p] at hp ⊢
  rw [hmin]
  exact h.le p hp

/-- What `task_update` does to the clocks, for any table of weights that are not 1. -/
theorem Clocks.taskUpdate (h : s.Clocks) (hone : ∀ n, weight n ≠ 1)
    (hupdate : s.taskUpdate weight = some t) :
    ∃ runTime m, t = { s.setTask s.runningTask
        { s.tasks s.runningTask with runTime := runTime, vrunTime := m } with minVrunTime := m } ∧
      s.minVrunTime ≤ m ∧ m < halfWord := by
  unfold Sched.taskUpdate at hupdate
  simp only at hupdate
  split at hupdate
  · cases hupdate
  · next hzero =>
      rw [not_or] at hzero
      set w := weight (s.tasks s.runningTask).priority
      set prod := mul64 (add64 (s.tasks s.runningTask).runTime 1) (weight defaultPriority)
      have hprod : prod < 2 * halfWord := Nat.mod_lt _ (by decide)
      have hw : 2 ≤ w := by
        have := hone (s.tasks s.runningTask).priority
        omega
      have hquot : prod / w < halfWord :=
        Nat.div_lt_of_lt_mul (hprod.trans_le (Nat.mul_le_mul_right _ hw))
      have hmax := maxVruntime_eq_max hquot h.min
      have hlt : max (prod / w) s.minVrunTime < halfWord := Nat.max_lt.mpr ⟨hquot, h.min⟩
      have hmin := maxVruntime_eq_max h.min hlt
      rw [hmax, hmin, Nat.max_eq_right (Nat.le_max_right ..)] at hupdate
      exact ⟨_, _, (Option.some.inj hupdate).symm, Nat.le_max_right .., hlt⟩

/-- What happens before `schedule` is entered: only the running task may change, and a tick makes
its clock the greatest. -/
structure Enters (s u : Sched) (ticked : Prop) : Prop where
  clocks : u.Clocks
  runningTask : u.runningTask = s.runningTask
  task : ∀ q, q ≠ s.runningTask → u.tasks q = s.tasks q
  exist : (u.tasks s.runningTask).exist = (s.tasks s.runningTask).exist
  preemptCount : ticked → (u.tasks s.runningTask).preemptCount = 0
  ticked : ticked → ∀ q, (u.tasks q).exist = true → u.clock q ≤ u.clock s.runningTask

theorem Clocks.entering (h : s.Clocks) (hone : ∀ n, weight n ≠ 1)
    (hu : s.entering weight c = some (u, taskIpcCheck)) :
    Enters s u (switches (s, c) = true) := by
  cases c with
  | create | preemptCount => simp [Sched.entering] at hu
  | interrupt =>
      simp only [Sched.entering, Option.some.injEq, Prod.mk.injEq] at hu
      obtain ⟨rfl, rfl⟩ := hu
      exact ⟨h, rfl, fun _ _ => rfl, rfl, by simp [switches], by simp [switches]⟩
  | timer =>
      obtain ⟨v, hv, heq⟩ := Option.bind_eq_some_iff.mp hu
      simp only [pure, Option.some.injEq, Prod.mk.injEq] at heq
      obtain ⟨rfl, rfl⟩ := heq
      obtain ⟨runTime, m, rfl, hle, hlt⟩ := h.taskUpdate hone hv
      set task : SchedTask := { s.tasks s.runningTask with runTime := runTime, vrunTime := m }
      have hself : (s.setTask s.runningTask task).tasks s.runningTask = task :=
        Function.update_self ..
      have hother (q : Slot) (hq : q ≠ s.runningTask) :
          (s.setTask s.runningTask task).tasks q = s.tasks q := Function.update_of_ne hq ..
      have hclock (q : Slot) (hq : ((s.setTask s.runningTask task).tasks q).exist = true) :
          (s.setTask s.runningTask task).clock q ≤ m := by
        unfold clock
        by_cases hne : q = s.runningTask
        · rw [hne, hself]
        · rw [hother q hne] at hq ⊢
          exact (h.le q hq).trans hle
      refine ⟨⟨hlt, hclock⟩, rfl, hother, ?_, fun hticked => ?_, fun _ q hq => ?_⟩
      · exact (congrArg SchedTask.exist hself).trans rfl
      · exact (congrArg SchedTask.preemptCount hself).trans (of_decide_eq_true hticked)
      · exact (hclock q hq).trans_eq (congrArg SchedTask.vrunTime hself).symm
  | block _ status =>
      simp only [Sched.entering] at hu
      split at hu
      · simp only [Option.some.injEq, Prod.mk.injEq] at hu
        obtain ⟨rfl, rfl⟩ := hu
        have hsame := SameClocks.setStatus s s.runningTask status
        refine ⟨h.congr hsame.minVrunTime hsame.task, rfl,
          fun q hq => setStatus_of_ne hq status, hsame.exist _, by simp [switches],
          by simp [switches]⟩
      · cases hu

/-! ## Who is ahead -/

theorem mem_ahead : q ∈ s.ahead xs p ↔ (s.tasks q).exist = true ∧ (s.tasks q).status ≠ .died ∧
    (q = s.runningTask ∨ q ∈ inFront xs p ∨ q ∉ xs ∧ s.clock q < s.clock p) := by
  simp only [ahead, Finset.mem_filter, Finset.mem_union, Finset.mem_insert, Finset.mem_sdiff,
    Finset.mem_univ, List.mem_toFinset]
  tauto

/-- The running task is ahead of all others. -/
theorem Waiting.runningTask_mem_ahead (h : s.Waiting weight contents) :
    s.runningTask ∈ s.ahead xs p :=
  mem_ahead.mpr ⟨(h.placed.loose _ List.mem_cons_self).1, by simp [h.running], Or.inl rfl⟩

theorem Waiting.ne_runningTask (h : s.Waiting weight contents) (hp : s.Ready p) :
    p ≠ s.runningTask := by
  rintro rfl
  have hready := hp.2
  simp [h.running] at hready

theorem Waiting.mem_taskList (h : s.Waiting weight contents) (hp : s.Ready p) :
    p ∈ contents .taskList :=
  h.placed.mem_taskList.mpr ⟨hp, by simpa using h.ne_runningTask hp⟩

theorem Waiting.ahead_subset_rivals (h : s.Waiting weight contents) (hp : s.Ready p) :
    s.ahead (contents .taskList) p ⊆ s.rivals p := by
  intro q hq
  obtain ⟨hexist, hdied, hahead⟩ := mem_ahead.mp hq
  have hmem := h.mem_taskList hp
  rw [rivals, Finset.mem_filter]
  refine ⟨Finset.mem_univ q, ?_, hexist, hdied, ?_⟩
  · rintro rfl
    rcases hahead with hrun | hfront | ⟨hnot, -⟩
    · exact h.ne_runningTask hp hrun
    · exact not_mem_inFront_self hfront
    · exact hnot hmem
  · rcases hahead with hrun | hfront | ⟨-, hlt⟩
    · exact Or.inl hrun
    · exact Or.inr (key_le_of_mem_inFront s.clock (h.placed.sorted trivial) hmem hfront)
    · exact Or.inr hlt.le

theorem Enters.ahead_subset {ticked : Prop} (h : Enters s u ticked)
    (hs : s.Waiting weight contents) (hp : s.Ready p) : u.ahead xs p ⊆ s.ahead xs p := by
  intro q hq
  obtain ⟨hexist, hdied, hahead⟩ := mem_ahead.mp hq
  by_cases hrun : q = s.runningTask
  · exact hrun ▸ hs.runningTask_mem_ahead
  · have hclock (r : Slot) (hr : r ≠ s.runningTask) : u.clock r = s.clock r :=
      congrArg SchedTask.vrunTime (h.task r hr)
    rw [h.task q hrun] at hexist hdied
    rw [h.runningTask, hclock q hrun, hclock p (hs.ne_runningTask hp)] at hahead
    exact mem_ahead.mpr ⟨hexist, hdied, hahead⟩

/-- `schedule` lets nobody ahead. -/
theorem Passed.ahead_subset (h : s.Passed t xs ys p)
    (htask : ∀ q, t.tasks q = { s.tasks q with status := (t.tasks q).status }) :
    t.ahead ys p ⊆ (Finset.univ.filter fun q => (s.tasks q).exist = true ∧
      (s.tasks q).status ≠ .died ∧ (q ∈ inFront xs p ∨ q ∉ xs ∧ s.clock q < s.clock p)) := by
  intro q hq
  obtain ⟨hexist, hdied, hahead⟩ := mem_ahead.mp hq
  have hclock (r : Slot) : t.clock r = s.clock r := by
    unfold clock
    rw [htask r]
  rw [hclock, hclock, ← or_assoc] at hahead
  rw [Finset.mem_filter]
  refine ⟨Finset.mem_univ q, ?_, fun hs => hdied (h.died q hs), ?_⟩
  · rw [htask q] at hexist
    exact hexist
  · rcases hahead with hfront | ⟨hnot, hlt⟩
    · exact h.front q hfront
    · by_cases hmem : q ∈ xs
      · exact h.front q (Or.inl ((h.behind q hmem).resolve_right hnot))
      · exact Or.inr ⟨hmem, hlt⟩

/-! ## One call -/

/-- A call that ends in `schedule`. -/
theorem Waiting.schedule (h : s.Waiting weight contents)
    (hweight : ∀ n, weight n < wordSize ∧ weight n ≠ 1)
    (hu : s.entering weight c = some (u, taskIpcCheck)) (hstep : schedStep weight s c = some t) :
    ∃ contents', t.Waiting weight contents' ∧ ∀ p, s.Ready p → t.Ready p →
      t.ahead (contents' .taskList) p ⊆ s.ahead (contents .taskList) p ∧
      (switches (s, c) = true → s.runningTask ∉ t.ahead (contents' .taskList) p) := by
  have henters := h.clocks.entering (fun n => (hweight n).2) hu
  obtain ⟨hplaced, hleaves, hrunning⟩ := h.placed.entering h.running hu
  rw [schedStep_entering hu] at hstep
  by_cases hcount : (u.tasks u.runningTask).preemptCount = 0
  · obtain ⟨v, t, contents', -, ht, htask, hplaced', hstatus, -, hmin, hpassed⟩ :=
      hplaced.schedule hleaves (fun _ => henters.clocks.near) (fun n => (hweight n).1) hcount
        taskIpcCheck
    obtain rfl := Option.some.inj (ht.symm.trans hstep)
    have hwait : t.Waiting weight contents' :=
      ⟨hplaced', hstatus, henters.clocks.congr hmin htask⟩
    refine ⟨contents', hwait, fun p hp hp' => ?_⟩
    have hmem := h.mem_taskList hp
    have hahead := (hpassed trivial p hmem (hwait.ne_runningTask hp')).ahead_subset htask
    refine ⟨fun q hq => henters.ahead_subset h hp ?_, fun hswitch hq => ?_⟩
    · obtain ⟨-, hexist, hdied, hq⟩ := Finset.mem_filter.mp (hahead hq)
      exact mem_ahead.mpr ⟨hexist, hdied, Or.inr hq⟩
    -- the task that was charged is in no list and has the greatest clock
    · obtain ⟨-, -, -, hfront | ⟨-, hlt⟩⟩ := Finset.mem_filter.mp (hahead hq)
      · have hloose := (h.placed.loose s.runningTask List.mem_cons_self).2
        exact hloose .taskList trivial (inFront_subset hfront)
      · have hexist := (hplaced.listed .taskList trivial p hmem).1
        exact (henters.ticked hswitch p hexist).not_gt hlt
  · have hpos := Nat.pos_of_ne_zero hcount
    rw [Sched.schedule, if_pos hpos] at hstep
    obtain rfl := Option.some.inj hstep
    refine ⟨contents, ⟨hplaced, hrunning hpos, henters.clocks⟩, fun p hp _ =>
      ⟨henters.ahead_subset h hp, fun hswitch => absurd ?_ hcount⟩⟩
    rw [henters.runningTask]
    exact henters.preemptCount hswitch

/-- Only the new task may come ahead. -/
theorem Waiting.create (h : s.Waiting weight contents) {priority : Nat}
    (hstep : s.createTask weight priority = some t) :
    ∃ contents' i, t.Waiting weight contents' ∧ ∀ p, s.Ready p →
      t.ahead (contents' .taskList) p ⊆ insert i (s.ahead (contents .taskList) p) := by
  unfold Sched.createTask at hstep
  obtain ⟨⟨i, u⟩, hinit, hinsert⟩ := Option.bind_eq_some_iff.mp hstep
  obtain ⟨hne, hrunning, hfree, hother, hself, hmin, hu⟩ := h.placed.initTask hinit
  have hclocks : u.Clocks := by
    refine ⟨hmin ▸ h.clocks.min, fun q hq => ?_⟩
    unfold clock
    by_cases hqi : q = i
    · rw [hqi, hself]
      exact Nat.zero_le _
    · rw [hother q hqi] at hq ⊢
      rw [hmin]
      exact h.clocks.le q hq
  obtain ⟨t, pre, post, hsplit, heq, hsame, hstatus, ht, hpost⟩ :=
    hu.insert (by rw [hrunning]; simpa using hne) fun _ => hclocks.near
  obtain rfl := Option.some.inj (heq.symm.trans hinsert)
  have htask (q : Slot) (hq : q ≠ i) : t.tasks q = s.tasks q := by
    rw [hsame.task q, hstatus q hq, hother q hq]
  have hrun : t.runningTask = s.runningTask := hsame.runningTask.trans hrunning
  refine ⟨_, i, ⟨hsame.runningTask ▸ ht, ?_, hclocks.congr hsame.minVrunTime hsame.task⟩,
    fun p hp q hq => ?_⟩
  · rw [hrun, htask _ hne.symm]
    exact h.running
  · rw [Finset.mem_insert]
    by_cases hqi : q = i
    · exact Or.inl hqi
    · obtain ⟨hexist, hdied, hahead⟩ := mem_ahead.mp hq
      have hpi : p ≠ i := by
        rintro rfl
        exact absurd hp.1 (by simp [hfree])
      have hready : Function.update contents (.exitedChildList i) [] .taskList =
          contents .taskList := Function.update_of_ne (by simp) ..
      have hmoves := hu.movesInsert (by simp [hself]) hsplit hsame hstatus hpost
      have hjoins := hmoves.joins trivial p (hready ▸ h.mem_taskList hp)
      have hclock (r : Slot) (hr : r ≠ i) : t.clock r = s.clock r :=
        congrArg SchedTask.vrunTime (htask r hr)
      have hclock' (r : Slot) (hr : r ≠ i) : u.clock r = s.clock r :=
        congrArg SchedTask.vrunTime (hother r hr)
      rw [hready] at hjoins
      rw [htask q hqi] at hexist hdied
      rw [hrun, hclock q hqi, hclock p hpi] at hahead
      refine Or.inr (mem_ahead.mpr ⟨hexist, hdied, ?_⟩)
      rcases hahead with hq | hq | ⟨hnot, hlt⟩
      · exact Or.inl hq
      · have hfront := hjoins.inFront q hq
        rw [hclock' q hqi, hclock' p hpi] at hfront
        exact Or.inr hfront
      · exact Or.inr (Or.inr ⟨fun hmem => hnot (hjoins.subset hmem), hlt⟩)

/-- The running task takes or releases locks. -/
theorem Waiting.setPreemptCount (h : s.Waiting weight contents) (n : Nat)
    (ht : t = s.setTask s.runningTask { s.tasks s.runningTask with preemptCount := n }) :
    t.Waiting weight contents ∧ ∀ p, s.Ready p →
      t.ahead (contents .taskList) p ⊆ s.ahead (contents .taskList) p := by
  have hself : t.tasks s.runningTask = { s.tasks s.runningTask with preemptCount := n } := by
    rw [ht]
    exact Function.update_self ..
  have hother (q : Slot) (hq : q ≠ s.runningTask) : t.tasks q = s.tasks q := by
    rw [ht]
    exact Function.update_of_ne hq ..
  have hplaced : t.Placed weight True contents [t.runningTask] := by
    rw [ht] at hself hother ⊢
    exact h.placed.changeOut rfl rfl rfl rfl hother (by rw [hself]) (by rw [hself])
  have hclocks : t.Clocks := by
    have hmin : t.minVrunTime = s.minVrunTime := by
      rw [ht]
      rfl
    refine ⟨hmin ▸ h.clocks.min, fun q hq => ?_⟩
    unfold clock
    rw [hmin]
    by_cases hrun : q = s.runningTask
    · rw [hrun, hself] at hq ⊢
      exact h.clocks.le s.runningTask hq
    · rw [hother q hrun] at hq ⊢
      exact h.clocks.le q hq
  have hrunning : t.runningTask = s.runningTask := by
    rw [ht]
    rfl
  refine ⟨⟨hplaced, ?_, hclocks⟩, fun p hp => ?_⟩
  · rw [hrunning, hself]
    exact h.running
  · have henters : Enters s t False :=
      ⟨hclocks, hrunning, hother, by rw [hself], False.elim, False.elim⟩
    exact henters.ahead_subset h hp

/-- While `p` is ready, a tick that switches tasks costs it a rival, and only a new task may
become one. -/
theorem Waiting.step (h : s.Waiting weight contents)
    (hweight : ∀ n, weight n < wordSize ∧ weight n ≠ 1) (hstep : schedStep weight s c = some t) :
    ∃ contents', t.Waiting weight contents' ∧ ∀ p, s.Ready p → t.Ready p →
      (t.ahead (contents' .taskList) p).card + (switches (s, c)).toNat ≤
        (s.ahead (contents .taskList) p).card + (creates (s, c)).toNat := by
  rcases exists_entering hstep with ⟨priority, rfl⟩ | ⟨n, rfl⟩ | ⟨u, taskIpcCheck, hu⟩
  · obtain ⟨contents', i, hwait, hahead⟩ := h.create hstep
    refine ⟨contents', hwait, fun p hp _ => ?_⟩
    simp only [switches, creates, Bool.toNat_false, Bool.toNat_true, Nat.add_zero]
    exact (Finset.card_le_card (hahead p hp)).trans (Finset.card_insert_le i _)
  · obtain ⟨hwait, hahead⟩ := h.setPreemptCount n (Option.some.inj hstep).symm
    refine ⟨contents, hwait, fun p hp _ => ?_⟩
    simp only [switches, creates, Bool.toNat_false, Nat.add_zero]
    exact Finset.card_le_card (hahead p hp)
  · obtain ⟨contents', hwait, hahead⟩ := h.schedule hweight hu hstep
    refine ⟨contents', hwait, fun p hp hp' => ?_⟩
    obtain ⟨hsub, hcharged⟩ := hahead p hp hp'
    refine le_trans ?_ (Nat.le_add_right _ _)
    cases hswitch : switches (s, c) with
    | false => simpa using Finset.card_le_card hsub
    | true =>
        have hlt : t.ahead (contents' .taskList) p ⊂ s.ahead (contents .taskList) p :=
          ⟨hsub, fun hle => hcharged hswitch (hle h.runningTask_mem_ahead)⟩
        exact Finset.card_lt_card hlt

/-- The clocks stand at 0. -/
theorem Waiting.init (h : SchedInit weight s) (hweight : ∀ n, weight n < wordSize) :
    ∃ contents, s.Waiting weight contents := by
  have hinv : SchedInv weight True s := .init h hweight
  obtain ⟨contents, hplaced⟩ := hinv.placed
  refine ⟨contents, hplaced, hinv.running, ?_, fun p hp => ?_⟩
  · rw [h.minVrunTime]
    decide
  · exact (h.vrunTime p hp).trans_le (Nat.zero_le _)

end Sched

/-! ## Runs of the scheduler -/

/-- From any state of any run, a task that stays ready sees fewer ticks that switch tasks than
there are tasks that may get the CPU before it, those that are created while it waits counted
in. -/
theorem schedSystem_served (hweight : ∀ n, weight n < wordSize ∧ weight n ≠ 1)
    (hs : (schedSystem weight).Reachable s) {es : List (Sched × SchedCall)}
    (hrun : (schedSystem weight).Trace es s t) (hready : ∀ e ∈ es, e.1.Ready p)
    (ht : t.Ready p) :
    es.countP switches + 1 ≤ (s.rivals p).card + es.countP creates := by
  obtain ⟨contents, hwait⟩ : ∃ contents, s.Waiting weight contents := by
    refine hs.invariant (P := fun s => ∃ contents, s.Waiting weight contents)
      (fun _ h => Sched.Waiting.init h fun n => (hweight n).1) fun _ _ _ h _ hstep => ?_
    obtain ⟨_, h⟩ := h
    exact (h.step hweight hstep).imp fun _ => And.left
  have hp : s.Ready p := by
    cases hrun with
    | nil => exact ht
    | cons => exact hready _ List.mem_cons_self
  obtain ⟨contents', hwait', hle⟩ := System.Trace.measure_le (Sched.Waiting weight)
    (fun s => s.Ready p) (fun s contents => (s.ahead (contents .taskList) p).card) switches creates
    (fun _ _ _ _ h hp hp' hstep =>
      (h.step hweight hstep).imp fun _ h' => ⟨h'.1, h'.2 p hp hp'⟩) hrun hready ht hwait
  have hrivals := Finset.card_le_card (hwait.ahead_subset_rivals hp)
  have hpos : 0 < (t.ahead (contents' .taskList) p).card :=
    Finset.card_pos.mpr ⟨_, hwait'.runningTask_mem_ahead⟩
  omega

theorem taskPrioToWeight_ne_one (priority : Nat) : taskPrioToWeight priority ≠ 1 := by
  rcases Nat.lt_or_ge priority 40 with hlt | hge
  · exact ((by decide : 1 < 15).trans_le (taskPrioToWeight_pos hlt)).ne'
  · rw [taskPrioToWeight, List.getD_eq_getElem?_getD, List.getElem?_eq_none (by simpa using hge)]
    decide

instance (s : Sched) (p : Slot) : Decidable (s.Ready p) :=
  inferInstanceAs (Decidable ((s.tasks p).exist = true ∧ (s.tasks p).status = .ready))

/-- The main task creates a task and is charged a tick. -/
def createThenTick (k : Heap SchedList Slot) : Option (Sched × Sched) := do
  let s ← schedStep taskPrioToWeight (bootSched k) (.create defaultPriority)
  let t ← schedStep taskPrioToWeight s (.timer fun _ => false)
  return (s, t)

theorem createThenTick_ready : ((bootLinks.bind createThenTick).any fun e => decide
    (e.1.Ready 2 ∧ e.2.Ready 2 ∧ (e.1.tasks e.1.runningTask).preemptCount = 0)) = true := by
  decide +kernel

/-- The new task waits for the idle task, whose clock stands at 0 as well. -/
theorem schedSystem_served_created : ∃ s t, (schedSystem taskPrioToWeight).Reachable s ∧
    schedStep taskPrioToWeight s (.timer fun _ => false) = some t ∧ s.Ready 2 ∧ t.Ready 2 ∧
      2 ≤ (s.rivals 2).card := by
  obtain ⟨e, hrun, hready⟩ := (Option.any_eq_true _ _).mp createThenTick_ready
  obtain ⟨hs, ht, hcount⟩ := of_decide_eq_true hready
  obtain ⟨k, hk, hrun⟩ := Option.bind_eq_some_iff.mp hrun
  unfold createThenTick at hrun
  obtain ⟨s, hcreate, hrun⟩ := Option.bind_eq_some_iff.mp hrun
  obtain ⟨t, htick, heq⟩ := Option.bind_eq_some_iff.mp hrun
  obtain rfl : (s, t) = e := Option.some.inj heq
  obtain ⟨k', hk', hinit⟩ := exists_bootLinks
  obtain rfl := Option.some.inj (hk'.symm.trans hk)
  have hreach : (schedSystem taskPrioToWeight).Reachable s := .step (.init hinit) trivial hcreate
  have hserved := schedSystem_served
    (fun n => ⟨taskPrioToWeight_lt n, taskPrioToWeight_ne_one n⟩) hreach (.cons htick (.nil t))
    (by simpa using hs) ht
  have hswitch : switches (s, .timer fun _ => false) = true := decide_eq_true hcount
  refine ⟨s, t, hreach, htick, hs, ht, ?_⟩
  simpa [List.countP_cons, hswitch, creates] using hserved

end ClayFigure
