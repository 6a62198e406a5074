/-
# The scheduler over whole runs

Every call that reaches `schedule` leaves a running task and, for every other task, the place its
status names. The ready tasks are in the order of their clocks in the runs in which no two clocks
are half of a word apart, where the signed difference is the usual comparison. In these runs the
task that is chosen has the least clock of all ready tasks.
-/

import ClayFigure.Task.FairShare
import ClayFigure.Task.SchedPlaced

namespace ClayFigure

open ClayFigure.Math

namespace Sched

/-- A ready task. -/
def Ready (s : Sched) (p : Slot) : Prop :=
  (s.tasks p).exist = true ∧ (s.tasks p).status = .ready

/-- A task that waits for a message or for a child. -/
def Waits (s : Sched) (p : Slot) : Prop :=
  (s.tasks p).exist = true ∧
    ((s.tasks p).status = .sending ∨ (s.tasks p).status = .receiving ∨
      (s.tasks p).status = .waiting)

/-- The ready task of the least clock, and the idle task only if none is ready. -/
def Chosen (s : Sched) (next : Slot) : Prop :=
  (∀ p, ¬ s.Ready p) ∧ next = s.idleTask ∨
    s.Ready next ∧ ∀ p, s.Ready p → (s.tasks next).vrunTime ≤ (s.tasks p).vrunTime

/-- What a ready task that is not chosen sees of `schedule`, between the two queues: all who get in
front of it, the chosen one with them, have smaller clocks. -/
structure Passed (s t : Sched) (xs ys : List Slot) (p : Slot) : Prop where
  front : ∀ q, q = t.runningTask ∨ q ∈ inFront ys p →
    q ∈ inFront xs p ∨ q ∉ xs ∧ s.clock q < s.clock p
  behind : ∀ q ∈ xs, q = t.runningTask ∨ q ∈ ys
  died : ∀ q, (s.tasks q).status = .died → (t.tasks q).status = .died

/-- The state in which a call enters `schedule`, with the answers of `task_ipc_check`. -/
def entering (weight : Nat → Nat) (s : Sched) : SchedCall → Option (Sched × (Slot → Bool))
  | .interrupt taskIpcCheck => some (s, taskIpcCheck)
  | .timer taskIpcCheck => do return (← s.taskUpdate weight, taskIpcCheck)
  | .block taskIpcCheck status =>
      if s.MayBlock status ∧ (s.tasks s.runningTask).preemptCount = 0 then
        some (s.setStatus s.runningTask status, taskIpcCheck)
      else none
  | _ => none

end Sched

/-- Where the tasks are between two calls of `schedule`. -/
structure SchedSound (weight : Nat → Nat) (s : Sched) (contents : SchedList → List Slot) :
    Prop where
  lists : s.links.Holds s.Used contents
  ready : ∀ p, p ∈ contents .taskList ↔ s.Ready p
  waits : ∀ p, p ∈ contents .waitingList ↔ s.Waits p
  died : ∀ p, (∃ parent, (s.tasks parent).exist = true ∧ p ∈ contents (.exitedChildList parent)) ↔
    (s.tasks p).exist = true ∧ (s.tasks p).status = .died
  running : ∀ p, (s.tasks p).exist = true ∧ (s.tasks p).status = .running ↔ p = s.runningTask
  blocked : ∀ p, (s.tasks p).exist = true → (s.tasks p).status = .blocked → p = s.idleTask
  runningTasks : s.runningTasks = (contents .taskList).length
  totalWeight : s.totalWeight =
    ((contents .taskList).map fun p => weight (s.tasks p).priority).sum % wordSize

/-- After the call no two clocks are half of a word apart. -/
def KeepsNear (weight : Nat → Nat) (s : Sched) (c : SchedCall) : Prop :=
  ∀ t, schedStep weight s c = some t → t.Near

variable {weight : Nat → Nat} {ordered : Prop} {s t : Sched}
  {contents : SchedList → List Slot} {out : List Slot} {p : Slot}

namespace Sched.Placed

/-- The members of `task_list`. -/
theorem mem_taskList (h : Placed weight ordered s contents out) :
    p ∈ contents .taskList ↔ s.Ready p ∧ p ∉ out := by
  have hused : s.Used .taskList := trivial
  constructor
  · intro hp
    obtain ⟨hexist, hbelongs⟩ := h.listed .taskList hused p hp
    refine ⟨⟨hexist, ?_⟩, fun hout => (h.loose p hout).2 .taskList hused hp⟩
    cases hstatus : (s.tasks p).status <;> simp_all [Belongs]
  · rintro ⟨⟨hexist, hstatus⟩, hout⟩
    rcases h.placed p hexist hout with ⟨l, -, hp, hbelongs⟩ | ⟨hblocked, -⟩
    · cases l <;> simp_all [Belongs]
    · simp [hstatus] at hblocked

/-- The members of `waiting_list`. -/
theorem mem_waitingList (h : Placed weight ordered s contents out) :
    p ∈ contents .waitingList ↔ s.Waits p ∧ p ∉ out := by
  have hused : s.Used .waitingList := trivial
  constructor
  · intro hp
    obtain ⟨hexist, hbelongs⟩ := h.listed .waitingList hused p hp
    refine ⟨⟨hexist, ?_⟩, fun hout => (h.loose p hout).2 .waitingList hused hp⟩
    cases hstatus : (s.tasks p).status <;> simp_all [Belongs]
  · rintro ⟨⟨hexist, hstatus⟩, hout⟩
    rcases h.placed p hexist hout with ⟨l, -, hp, hbelongs⟩ | ⟨hblocked, -⟩
    · cases l <;> rcases hstatus with hstatus | hstatus | hstatus <;> simp_all [Belongs]
    · simp [hblocked] at hstatus

/-- The members of the lists of exited children. -/
theorem mem_exitedChildList (h : Placed weight ordered s contents out) :
    (∃ parent, (s.tasks parent).exist = true ∧ p ∈ contents (.exitedChildList parent)) ↔
      ((s.tasks p).exist = true ∧ (s.tasks p).status = .died) ∧ p ∉ out := by
  constructor
  · rintro ⟨parent, hparent, hp⟩
    obtain ⟨hexist, hbelongs⟩ := h.listed (.exitedChildList parent) hparent p hp
    refine ⟨⟨hexist, ?_⟩, fun hout => (h.loose p hout).2 (.exitedChildList parent) hparent hp⟩
    cases hstatus : (s.tasks p).status <;> simp_all [Belongs]
  · rintro ⟨⟨hexist, hstatus⟩, hout⟩
    rcases h.placed p hexist hout with ⟨l, hl, hp, hbelongs⟩ | ⟨hblocked, -⟩
    · cases l with
      | exitedChildList parent => exact ⟨parent, hl, hp⟩
      | taskList | waitingList => simp [hstatus, Belongs] at hbelongs
    · simp [hstatus] at hblocked

/-- Without the order. -/
theorem unordered (h : Placed weight ordered s contents out) :
    Placed weight False s contents out where
  __ := h
  sorted := False.elim

/-- A task in no list changes. -/
theorem changeOut (h : Placed weight ordered s contents (p :: out)) (hlinks : t.links = s.links)
    (hidle : t.idleTask = s.idleTask) (hrunning : t.runningTasks = s.runningTasks)
    (htotal : t.totalWeight = s.totalWeight) (hother : ∀ q, q ≠ p → t.tasks q = s.tasks q)
    (hexist : (t.tasks p).exist = (s.tasks p).exist) (hppid : (t.tasks p).ppid = (s.tasks p).ppid) :
    Placed weight ordered t contents (p :: out) := by
  have hexists (q : Slot) : (t.tasks q).exist = (s.tasks q).exist := by
    by_cases hq : q = p
    · rw [hq, hexist]
    · rw [hother q hq]
  have hppids (q : Slot) : (t.tasks q).ppid = (s.tasks q).ppid := by
    by_cases hq : q = p
    · rw [hq, hppid]
    · rw [hother q hq]
  have hused : t.Used = s.Used := by
    funext l
    cases l with
    | taskList | waitingList => rfl
    | exitedChildList q => simp only [Used, hexists]
  have hin (l : SchedList) (hl : s.Used l) (q : Slot) (hq : q ∈ contents l) :
      t.tasks q = s.tasks q :=
    hother q fun heq => (h.loose p List.mem_cons_self).2 l hl (heq ▸ hq)
  refine ⟨?_, fun l hl q hq => ?_, fun q hq hout => ?_, fun q hq => ?_, ?_, fun l hl hq => ?_,
    fun q hq => ?_, fun hordered => ?_, ?_, ?_⟩
  · rw [hlinks, hused]
    exact h.lists
  · rw [hused] at hl
    rw [hin l hl q hq]
    exact h.listed l hl q hq
  · have hne : q ≠ p := fun heq => hout (heq ▸ List.mem_cons_self)
    unfold At
    rw [hused, hidle, hother q hne]
    exact h.placed q (hexists q ▸ hq) hout
  · rw [hexists, hused]
    exact h.loose q hq
  · rw [hidle, hexists]
    exact h.idleExist
  · rw [hused] at hl
    rw [hidle] at hq
    exact h.idle l hl hq
  · obtain ⟨r, hr, hparent⟩ := h.parent q (hexists q ▸ hq)
    exact ⟨r, (hexists r).trans hr, (hppids q).trans hparent⟩
  · refine (h.sorted hordered).imp_of_mem fun {q r} hq hr hle => ?_
    rw [hin .taskList trivial q hq, hin .taskList trivial r hr]
    exact hle
  · rw [hrunning]
    exact h.runningTasks
  · rw [htotal, h.totalWeight]
    congr 2
    exact List.map_congr_left fun q hq => by rw [hin .taskList trivial q hq]

/-- `schedule` puts the running task away, wakes tasks and switches to the one it chooses. -/
theorem schedule (h : Placed weight ordered s contents [s.runningTask]) (hleaves : Leaves s)
    (hnear : ordered → s.Near) (hweight : ∀ n, weight n < wordSize)
    (hcount : (s.tasks s.runningTask).preemptCount = 0) (taskIpcCheck : Slot → Bool) :
    ∃ u t contents', s.readyUp weight taskIpcCheck = some u ∧
      s.schedule weight taskIpcCheck = some t ∧
      (∀ p, t.tasks p = { s.tasks p with status := (t.tasks p).status }) ∧
      Placed weight ordered t contents' [t.runningTask] ∧
      (t.tasks t.runningTask).status = .running ∧ (ordered → u.Chosen t.runningTask) ∧
      t.minVrunTime = s.minVrunTime ∧ (ordered → ∀ p ∈ contents .taskList, p ≠ t.runningTask →
        s.Passed t (contents .taskList) (contents' .taskList) p) := by
  obtain ⟨a, contents₁, haway, hsame₁, h₁⟩ := h.putAway hleaves hnear
  obtain ⟨u, contents₂, hwait, hsame₂, h₂⟩ :=
    h₁.checkWaitingList (fun hordered => hsame₁.near (hnear hordered)) taskIpcCheck
  have hmoves := hsame₁.trans hsame₂
  have hsame := hmoves.toSameClocks
  obtain ⟨next, v, contents₃, hnext, hsame₃, h₃, hchosen⟩ :=
    h₂.getNextTask (fun hordered => hsame.near (hnear hordered)) hweight
  set t : Sched := { v.setStatus next .running with runningTask := next }
  have hstatus := setStatus_self (s := v) (p := next) .running
  have htask := (hsame.trans hsame₃).trans (SameClocks.setStatus v next .running)
  have hready : s.readyUp weight taskIpcCheck = some u := by simp [readyUp, haway, hwait]
  have ht : Placed weight ordered t contents₃ [next] :=
    h₃.changeOut rfl rfl rfl rfl (fun q hq => setStatus_of_ne hq .running)
      ((SameClocks.setStatus v next .running).exist next)
      ((SameClocks.setStatus v next .running).ppid next)
  refine ⟨u, t, contents₃, hready, ?_, htask.task, ht, hstatus, fun hordered => ?_,
    htask.minVrunTime, fun hordered p hp hne => ?_⟩
  · simp [Sched.schedule, hcount, hready, hnext, t]
  · rcases hchosen with ⟨hnil, hidle⟩ | ⟨hcons, -, hleast⟩
    · refine Or.inl ⟨fun q hq => ?_, hidle⟩
      have hmem := h₂.mem_taskList.mpr ⟨hq, List.not_mem_nil⟩
      rw [hnil] at hmem
      exact List.not_mem_nil hmem
    · have hmem : next ∈ contents₂ .taskList := hcons ▸ List.mem_cons_self
      exact Or.inr ⟨(h₂.mem_taskList.mp hmem).1, fun q hq =>
        hleast hordered q (h₂.mem_taskList.mpr ⟨hq, List.not_mem_nil⟩)⟩
  · have hjoins := hmoves.joins hordered p hp
    rcases hchosen with ⟨hnil, -⟩ | ⟨hcons, htasks, -⟩
    · exact absurd (hnil ▸ hjoins.subset hp) List.not_mem_nil
    · have hnext : next ∈ contents₂ .taskList := hcons ▸ List.mem_cons_self
      refine ⟨fun q hq => hjoins.inFront q ?_, fun q hq => ?_, fun q hq => ?_⟩
      · rw [hcons, inFront_cons_of_ne hne.symm]
        exact List.mem_cons.mpr hq
      · exact List.mem_cons.mp (hcons ▸ hjoins.subset hq)
      · have hdied := hmoves.died q hq
        have hq : q ≠ next := by
          rintro rfl
          simp [(h₂.mem_taskList.mp hnext).1.2] at hdied
        have htask : t.tasks q = v.tasks q := setStatus_of_ne hq .running
        rw [htask, htasks]
        exact hdied

/-- The slot of a new task, and all that `task_alloc` and `init_task_struct` change. -/
theorem initTask (h : Placed weight ordered s contents [s.runningTask]) {priority : Nat}
    (hinit : s.initTask priority = some (p, t)) :
    p ≠ s.runningTask ∧ t.runningTask = s.runningTask ∧ (s.tasks p).exist = false ∧
      (∀ q, q ≠ p → t.tasks q = s.tasks q) ∧
      t.tasks p = ⟨true, s.runningTask, .ready, 0, priority, 0, 0⟩ ∧
      t.minVrunTime = s.minVrunTime ∧
      Placed weight ordered t (Function.update contents (.exitedChildList p) [])
        [p, t.runningTask] := by
  unfold Sched.initTask at hinit
  obtain ⟨i, hfind, heq⟩ := Option.bind_eq_some_iff.mp hinit
  simp only [pure, Option.some.injEq, Prod.mk.injEq] at heq
  obtain ⟨rfl, rfl⟩ := heq
  have hfree : (s.tasks i).exist = false := by simpa using List.find?_some hfind
  have hne {q : Slot} (hq : (s.tasks q).exist = true) : q ≠ i := by
    rintro rfl
    simp [hfree] at hq
  obtain ⟨hrunexist, hrunloose⟩ := h.loose s.runningTask List.mem_cons_self
  have hloose : Heap.Loose s.Used contents i := fun l hl hi => hne (h.listed l hl i hi).1 rfl
  have hlists := h.lists.clear_initList hloose (.exitedChildList i)
  set t : Sched := (s.setLinks (((s.links.clear (.exitedChildList i) i).clear
    (.exitedChildList i) i).initList (.exitedChildList i))).setTask i
      ⟨true, s.runningTask, .ready, 0, priority, 0, 0⟩
  have hself : t.tasks i = ⟨true, s.runningTask, .ready, 0, priority, 0, 0⟩ :=
    Function.update_self ..
  have hother (q : Slot) (hq : q ≠ i) : t.tasks q = s.tasks q := Function.update_of_ne hq ..
  have hkeep {q : Slot} (hq : (s.tasks q).exist = true) : t.tasks q = s.tasks q :=
    hother q (hne hq)
  have hused (l : SchedList) : t.Used l ↔ l = .exitedChildList i ∨ s.Used l := by
    cases l with
    | taskList | waitingList => simp [Used]
    | exitedChildList q =>
        by_cases hq : q = i
        · simp [Used, hq, hself]
        · simp [Used, hq, hother q hq]
  have hmem (l : SchedList) (hl : t.Used l) (q : Slot)
      (hq : q ∈ Function.update contents (.exitedChildList i) [] l) :
      s.Used l ∧ q ∈ contents l := by
    by_cases heq : l = .exitedChildList i
    · rw [heq, Function.update_self] at hq
      exact absurd hq List.not_mem_nil
    · rw [Function.update_of_ne heq] at hq
      exact ⟨((hused l).mp hl).resolve_left heq, hq⟩
  have hready : Function.update contents (.exitedChildList i) [] .taskList = contents .taskList :=
    Function.update_of_ne (by simp) ..
  have hin (q : Slot) (hq : q ∈ contents .taskList) : t.tasks q = s.tasks q :=
    hkeep (h.listed .taskList trivial q hq).1
  refine ⟨(hne hrunexist).symm, rfl, hfree, hother, hself, rfl,
    hlists.congr_used fun l => (hused l).symm, fun l hl q hq => ?_, fun q hq hout => ?_,
    fun q hq => ?_, ?_, fun l hl hq => ?_, fun q hq => ?_, fun hordered => ?_, ?_, ?_⟩
  · obtain ⟨hl, hq⟩ := hmem l hl q hq
    rw [hkeep (h.listed l hl q hq).1]
    exact h.listed l hl q hq
  · rw [List.mem_cons, not_or] at hout
    have hexist : (s.tasks q).exist = true := hother q hout.1 ▸ hq
    unfold At
    rw [hother q hout.1]
    refine (h.placed q hexist hout.2).imp_left ?_
    rintro ⟨l, hl, hql, hbelongs⟩
    have hl' : l ≠ .exitedChildList i := by
      rintro rfl
      exact hne hl rfl
    exact ⟨l, (hused l).mpr (Or.inr hl), by rwa [Function.update_of_ne hl'], hbelongs⟩
  · rcases List.mem_cons.mp hq with rfl | hq
    · exact ⟨by rw [hself], fun l hl hq => hloose l (hmem l hl _ hq).1 (hmem l hl _ hq).2⟩
    · obtain ⟨hexist, hqloose⟩ := h.loose q hq
      refine ⟨by rwa [hkeep hexist], fun l hl hq => ?_⟩
      exact hqloose l (hmem l hl _ hq).1 (hmem l hl _ hq).2
  · change (t.tasks s.idleTask).exist = true
    rw [hkeep h.idleExist]
    exact h.idleExist
  · exact h.idle l (hmem l hl _ hq).1 (hmem l hl _ hq).2
  · by_cases hqi : q = i
    · refine ⟨s.runningTask, ?_, ?_⟩
      · rw [hkeep hrunexist]
        exact hrunexist
      · rw [hqi, hself]
    · rw [hother q hqi] at hq ⊢
      obtain ⟨r, hr, hppid⟩ := h.parent q hq
      exact ⟨r, by rwa [hkeep hr], hppid⟩
  · rw [hready]
    refine (h.sorted hordered).imp_of_mem fun {q r} hq hr hle => ?_
    rw [hin q hq, hin r hr]
    exact hle
  · rw [hready]
    exact h.runningTasks
  · have hmap : (contents .taskList).map (fun q => weight (t.tasks q).priority) =
        (contents .taskList).map fun q => weight (s.tasks q).priority :=
      List.map_congr_left fun q hq => by rw [hin q hq]
    rw [hready, hmap]
    exact h.totalWeight

end Sched.Placed

/-! ## One call -/

/-- The running task runs, and every other task is where its status says. -/
structure SchedInv (weight : Nat → Nat) (ordered : Prop) (s : Sched) : Prop where
  placed : ∃ contents, s.Placed weight ordered contents [s.runningTask]
  running : (s.tasks s.runningTask).status = .running

theorem Sched.Near.of_task (h : t.Near)
    (htask : ∀ p, t.tasks p = { s.tasks p with status := (t.tasks p).status }) : s.Near := by
  have hexist (p : Slot) : (t.tasks p).exist = (s.tasks p).exist := by rw [htask p]
  have hclock (p : Slot) : (t.tasks p).vrunTime = (s.tasks p).vrunTime := by rw [htask p]
  intro p q hp hq
  rw [← hclock p, ← hclock q]
  exact h p q ((hexist p).trans hp) ((hexist q).trans hq)

/-- The call is `schedule` from the state it is entered in. -/
theorem schedStep_entering {c : SchedCall} {u : Sched} {taskIpcCheck : Slot → Bool}
    (hu : s.entering weight c = some (u, taskIpcCheck)) :
    schedStep weight s c = u.schedule weight taskIpcCheck := by
  cases c with
  | create | preemptCount => simp [Sched.entering] at hu
  | interrupt =>
      simp only [Sched.entering, Option.some.injEq, Prod.mk.injEq] at hu
      obtain ⟨rfl, rfl⟩ := hu
      rfl
  | timer =>
      obtain ⟨v, hv, heq⟩ := Option.bind_eq_some_iff.mp hu
      simp only [pure, Option.some.injEq, Prod.mk.injEq] at heq
      obtain ⟨rfl, rfl⟩ := heq
      simp [schedStep, hv]
  | block _ status =>
      simp only [Sched.entering] at hu
      split at hu
      · next hblock =>
          simp only [Option.some.injEq, Prod.mk.injEq] at hu
          obtain ⟨rfl, rfl⟩ := hu
          simp [schedStep, Sched.taskBlock, hblock.1, hblock.2]
      · simp at hu

/-- Any other call than a creation and a change of the preempt count ends in `schedule`. -/
theorem exists_entering {c : SchedCall} (hstep : schedStep weight s c = some t) :
    (∃ priority, c = .create priority) ∨ (∃ n, c = .preemptCount n) ∨
      ∃ u taskIpcCheck, s.entering weight c = some (u, taskIpcCheck) := by
  cases c with
  | create priority => exact Or.inl ⟨priority, rfl⟩
  | preemptCount n => exact Or.inr (Or.inl ⟨n, rfl⟩)
  | interrupt taskIpcCheck => exact Or.inr (Or.inr ⟨s, taskIpcCheck, rfl⟩)
  | timer taskIpcCheck =>
      obtain ⟨u, hu, -⟩ := Option.bind_eq_some_iff.mp hstep
      exact Or.inr (Or.inr ⟨u, taskIpcCheck, by simp [Sched.entering, hu]⟩)
  | block taskIpcCheck status =>
      simp only [schedStep, Sched.taskBlock] at hstep
      split at hstep
      · next hmay =>
          split at hstep
          · next hcount =>
              exact Or.inr (Or.inr ⟨s.setStatus s.runningTask status, taskIpcCheck,
                by simp [Sched.entering, hmay, hcount]⟩)
          · simp at hstep
      · simp at hstep

/-- The state in which `schedule` is entered. -/
theorem Sched.Placed.entering (hplaced : s.Placed weight ordered contents [s.runningTask])
    (hrunning : (s.tasks s.runningTask).status = .running) {c : SchedCall} {u : Sched}
    {taskIpcCheck : Slot → Bool} (hu : s.entering weight c = some (u, taskIpcCheck)) :
    u.Placed weight ordered contents [u.runningTask] ∧ u.Leaves ∧
      (0 < (u.tasks u.runningTask).preemptCount →
        (u.tasks u.runningTask).status = .running) := by
  cases c with
  | create | preemptCount => simp [Sched.entering] at hu
  | interrupt =>
      simp only [Sched.entering, Option.some.injEq, Prod.mk.injEq] at hu
      obtain ⟨rfl, rfl⟩ := hu
      exact ⟨hplaced, Or.inl hrunning, fun _ => hrunning⟩
  | timer =>
      obtain ⟨v, hv, heq⟩ := Option.bind_eq_some_iff.mp hu
      simp only [pure, Option.some.injEq, Prod.mk.injEq] at heq
      obtain ⟨rfl, rfl⟩ := heq
      unfold Sched.taskUpdate at hv
      simp only at hv
      split at hv
      · simp at hv
      · rw [Option.some.injEq] at hv
        subst hv
        refine ⟨hplaced.changeOut rfl rfl rfl rfl (fun q hq => ?_) ?_ ?_,
          Or.inl ?_, fun _ => ?_⟩ <;>
          simp_all [Sched.setTask]
  | block _ status =>
      simp only [Sched.entering] at hu
      split at hu
      · next hblock =>
          simp only [Option.some.injEq, Prod.mk.injEq] at hu
          obtain ⟨rfl, rfl⟩ := hu
          have hsame := Sched.SameClocks.setStatus s s.runningTask status
          refine ⟨hplaced.changeOut rfl rfl rfl rfl
            (fun q hq => Sched.setStatus_of_ne hq status) (hsame.exist _) (hsame.ppid _),
            Or.inr ?_, fun hpos => ?_⟩
          · change s.MayBlock ((s.setStatus s.runningTask status).tasks s.runningTask).status
            rw [Sched.setStatus_self]
            exact hblock.1
          · rw [hsame.task] at hpos
            exact absurd (hsame.runningTask ▸ hblock.2) (Nat.ne_of_gt hpos)
      · simp at hu

namespace SchedInv

theorem init (h : SchedInit weight s) (hweight : ∀ n, weight n < wordSize) :
    SchedInv weight ordered s := by
  refine ⟨⟨_, h.lists, fun l _ p hp => ?_, fun p hp hout => ?_, fun p hp => ?_,
    (h.exist _).mpr (Or.inr rfl), fun l _ hl => ?_, fun p hp => ?_, fun _ => ?_, ?_, ?_⟩,
    h.runningStatus⟩
  · split at hp
    · next heq =>
        rw [List.mem_singleton.mp hp, heq, h.idleStatus]
        exact ⟨(h.exist _).mpr (Or.inr rfl), trivial⟩
    · exact absurd hp List.not_mem_nil
  · have hidle : p = s.idleTask := ((h.exist p).mp hp).resolve_left (by simpa using hout)
    refine Or.inl ⟨.taskList, trivial, by simp [hidle], ?_⟩
    rw [hidle, h.idleStatus]
    trivial
  · rw [List.mem_singleton.mp hp]
    refine ⟨(h.exist _).mpr (Or.inl rfl), fun l _ hl => ?_⟩
    dsimp only at hl
    split at hl
    · exact h.idle (List.mem_singleton.mp hl).symm
    · exact List.not_mem_nil hl
  · by_contra hne
    rw [if_neg hne] at hl
    exact List.not_mem_nil hl
  · exact ⟨s.runningTask, (h.exist _).mpr (Or.inl rfl), h.ppid p hp⟩
  · simp
  · simp [h.runningTasks]
  · simp [h.totalWeight, h.priority, Nat.mod_eq_of_lt (hweight idlePriority)]

/-- `schedule` neither fails nor loses a task. -/
theorem schedule (h : SchedInv weight ordered s) (hweight : ∀ n, weight n < wordSize)
    {c : SchedCall} {u : Sched} {taskIpcCheck : Slot → Bool}
    (hu : s.entering weight c = some (u, taskIpcCheck)) (hnear : ordered → u.Near) :
    ∃ t, schedStep weight s c = some t ∧ SchedInv weight ordered t ∧
      (t.Near → u.Near) ∧ ((u.tasks u.runningTask).preemptCount = 0 → ordered →
        ∃ v, u.readyUp weight taskIpcCheck = some v ∧ v.Chosen t.runningTask) := by
  obtain ⟨contents, hplaced⟩ := h.placed
  obtain ⟨hplaced, hleaves, hrunning⟩ := hplaced.entering h.running hu
  rw [schedStep_entering hu]
  by_cases hcount : (u.tasks u.runningTask).preemptCount = 0
  · obtain ⟨v, t, contents', hready, ht, htask, hplaced', hstatus, hchosen, -⟩ :=
      hplaced.schedule hleaves hnear hweight hcount taskIpcCheck
    exact ⟨t, ht, ⟨⟨contents', hplaced'⟩, hstatus⟩, fun hnear => hnear.of_task htask,
      fun _ hordered => ⟨v, hready, hchosen hordered⟩⟩
  · refine ⟨u, ?_, ⟨⟨contents, hplaced⟩, hrunning (Nat.pos_of_ne_zero hcount)⟩, id,
      fun hzero => absurd hzero hcount⟩
    rw [Sched.schedule, if_pos (Nat.pos_of_ne_zero hcount)]

theorem unordered (h : SchedInv weight ordered s) : SchedInv weight False s :=
  ⟨h.placed.imp fun _ => Sched.Placed.unordered, h.running⟩

/-- A new task is ready. -/
theorem create (h : SchedInv weight ordered s) {priority : Nat} (hnear : ordered → t.Near)
    (hstep : s.createTask weight priority = some t) : SchedInv weight ordered t := by
  obtain ⟨contents, hplaced⟩ := h.placed
  unfold Sched.createTask at hstep
  obtain ⟨⟨p, u⟩, hinit, hinsert⟩ := Option.bind_eq_some_iff.mp hstep
  obtain ⟨hne, hrunning, -, htask, -, -, hu⟩ := hplaced.initTask hinit
  have hout : p ∉ [u.runningTask] := by
    rw [hrunning]
    simpa using hne
  -- the clocks are those after the call, whatever the order of the ready tasks is
  obtain ⟨_, _, _, -, heq, hsame, -⟩ := hu.unordered.insert hout False.elim
  obtain rfl := Option.some.inj (heq.symm.trans hinsert)
  obtain ⟨_, pre, post, -, heq, hsame, hother, ht, -⟩ :=
    hu.insert hout fun hordered => (hnear hordered).of_task hsame.task
  obtain rfl := Option.some.inj (heq.symm.trans hinsert)
  refine ⟨⟨_, hsame.runningTask ▸ ht⟩, ?_⟩
  rw [hsame.runningTask, hrunning, hother _ hne.symm, htask _ hne.symm]
  exact h.running

theorem step (h : SchedInv weight ordered s) (hweight : ∀ n, weight n < wordSize)
    {c : SchedCall} (hnear : ordered → t.Near) (hstep : schedStep weight s c = some t) :
    SchedInv weight ordered t := by
  rcases exists_entering hstep with ⟨priority, rfl⟩ | ⟨n, rfl⟩ | ⟨u, taskIpcCheck, hu⟩
  · exact h.create hnear hstep
  · obtain ⟨contents, hplaced⟩ := h.placed
    have hrunning := h.running
    obtain rfl := Option.some.inj hstep
    refine ⟨⟨contents, hplaced.changeOut rfl rfl rfl rfl (fun q hq => ?_) ?_ ?_⟩, ?_⟩ <;>
      simp_all [Sched.setTask]
  -- whatever enters `schedule` leaves it with a task that runs
  · obtain ⟨_, heq, -, hclocks, -⟩ := h.unordered.schedule hweight hu False.elim
    obtain rfl := Option.some.inj (heq.symm.trans hstep)
    obtain ⟨_, heq, hinv, -⟩ := h.schedule hweight hu fun hordered => hclocks (hnear hordered)
    obtain rfl := Option.some.inj (heq.symm.trans hstep)
    exact hinv

/-- The invariant, read off the lists. -/
theorem sound (h : SchedInv weight ordered s) :
    ∃ contents, SchedSound weight s contents ∧ (ordered → (contents .taskList).Pairwise
      fun p q => (s.tasks p).vrunTime ≤ (s.tasks q).vrunTime) := by
  obtain ⟨contents, hplaced⟩ := h.placed
  have hexist := (hplaced.loose s.runningTask List.mem_cons_self).1
  -- the running task is none of those the other statuses name
  have hout {p : Slot} (hp : (s.tasks p).status ≠ .running) : p ∉ [s.runningTask] := by
    rw [List.mem_singleton]
    rintro rfl
    exact hp h.running
  refine ⟨contents, ⟨hplaced.lists, fun p => ?_, fun p => ?_, fun p => ?_, fun p => ?_,
    fun p hp hstatus => ?_, hplaced.runningTasks, hplaced.totalWeight⟩, hplaced.sorted⟩
  · rw [hplaced.mem_taskList]
    exact and_iff_left_of_imp fun hp => hout (by simp [hp.2])
  · rw [hplaced.mem_waitingList]
    exact and_iff_left_of_imp fun hp => hout (by rcases hp.2 with hp | hp | hp <;> simp [hp])
  · rw [hplaced.mem_exitedChildList]
    exact and_iff_left_of_imp fun hp => hout (by simp [hp.2])
  · refine ⟨fun ⟨hp, hstatus⟩ => ?_, fun heq => heq ▸ ⟨hexist, h.running⟩⟩
    by_contra hne
    rcases hplaced.placed p hp (by simpa using hne) with ⟨l, -, -, hbelongs⟩ | ⟨hblocked, -⟩
    · cases l <;> simp [hstatus, Belongs] at hbelongs
    · simp [hstatus] at hblocked
  · rcases hplaced.placed p hp (hout (by simp [hstatus])) with
      ⟨l, -, -, hbelongs⟩ | ⟨-, hidle⟩
    · cases l <;> simp [hstatus, Belongs] at hbelongs
    · exact hidle

end SchedInv

/-! ## Runs of the scheduler -/

/-- In every state of every run each task is in the one list its status names, the counters are
those of the ready tasks, and no call of `schedule` fails. -/
theorem schedSystem_sound (hweight : ∀ n, weight n < wordSize)
    (hs : (schedSystem weight).Reachable s) :
    (∃ contents, SchedSound weight s contents) ∧
      ∀ c u taskIpcCheck, s.entering weight c = some (u, taskIpcCheck) →
        ∃ t, schedStep weight s c = some t := by
  have hinv : SchedInv weight False s :=
    hs.invariant (fun _ h => .init h hweight) fun _ _ _ h _ hstep =>
      h.step hweight False.elim hstep
  refine ⟨hinv.sound.imp fun _ => And.left, fun c u taskIpcCheck hu => ?_⟩
  exact (hinv.schedule hweight hu False.elim).imp fun _ => And.left

theorem taskPrioToWeight_lt (priority : Nat) : taskPrioToWeight priority < wordSize := by
  rcases Nat.lt_or_ge priority 40 with hlt | hge
  · revert priority
    decide
  · rw [taskPrioToWeight, List.getD_eq_getElem?_getD, List.getElem?_eq_none (by simpa using hge)]
    decide

/-- The lists that `task_init` has initialized, and the idle task in `task_list`. -/
def bootLinks : Option (Heap SchedList Slot) :=
  Heap.listAppend ([SchedList.taskList, .waitingList, .exitedChildList 0, .exitedChildList 1].foldr
    (fun l k => Heap.initList k l) (⟨fun _ => none, fun _ => none⟩ : Heap SchedList Slot))
    .taskList (.elem 1)

/-- The main task 0, which runs, and the idle task 1. -/
def bootSched (links : Heap SchedList Slot) : Sched where
  tasks := fun p => ⟨p = 0 ∨ p = 1, 0, if p = 0 then .running else .ready, 0,
    if p = 0 then defaultPriority else idlePriority, 0, 0⟩
  links := links
  minVrunTime := 0
  runningTasks := 1
  totalWeight := taskPrioToWeight idlePriority
  idleTask := 1
  runningTask := 0

/-- The scheduler of the kernel, after `task_init`. -/
theorem exists_bootLinks : ∃ k, bootLinks = some k ∧ SchedInit taskPrioToWeight (bootSched k) := by
  have hlists := Heap.Holds.initLists Slot [SchedList.taskList, .waitingList,
    .exitedChildList 0, .exitedChildList 1] (by decide)
  obtain ⟨k, happend, hk⟩ :=
    hlists.listAppend (l := .taskList) (t := 1) (by simp) (by simp [Heap.Loose])
  refine ⟨k, happend, fun h => absurd h (by decide : (1 : Slot) ≠ 0), by simp [bootSched],
    fun _ _ => rfl, rfl, rfl, rfl, fun _ _ => rfl, rfl, ?_, rfl, rfl⟩
  have hcontents : Function.update (fun _ => []) SchedList.taskList ([] ++ [(1 : Slot)]) =
      fun l => if l = SchedList.taskList then [1] else [] := by
    funext l
    cases l <;> simp
  rw [hcontents] at hk
  refine hk.congr_used fun l => ?_
  cases l <;> simp [Sched.Used, bootSched]

theorem exists_schedInit : ∃ s, SchedInit taskPrioToWeight s ∧ s.Near ∧
    (s.tasks s.runningTask).preemptCount = 0 := by
  obtain ⟨k, -, hinit⟩ := exists_bootLinks
  exact ⟨bootSched k, hinit, fun _ _ _ _ => (by decide : 0 < 0 + halfWord), rfl⟩

/-- A yield of the main task. -/
theorem schedSystem_sound_yield : ∃ s t, SchedInit taskPrioToWeight s ∧
    schedStep taskPrioToWeight s (.interrupt fun _ => false) = some t ∧
      ∃ contents, SchedSound taskPrioToWeight t contents := by
  obtain ⟨s, hinit, -⟩ := exists_schedInit
  have hreach : (schedSystem taskPrioToWeight).Reachable s := .init hinit
  obtain ⟨t, ht⟩ := (schedSystem_sound taskPrioToWeight_lt hreach).2
    (.interrupt fun _ => false) _ _ rfl
  exact ⟨s, t, hinit, ht, (schedSystem_sound taskPrioToWeight_lt (.step hreach trivial ht)).1⟩

/-- Where the clocks stay near each other, `task_list` is in the order of the clocks, and
`schedule` switches to a task of the least clock among the ready ones. -/
theorem schedSystem_least (hweight : ∀ n, weight n < wordSize)
    (hs : (schedSystem weight).ReachableWhen (KeepsNear weight) s) :
    (∃ contents, SchedSound weight s contents ∧ (contents .taskList).Pairwise
      fun p q => (s.tasks p).vrunTime ≤ (s.tasks q).vrunTime) ∧
      ∀ c u taskIpcCheck, s.entering weight c = some (u, taskIpcCheck) → u.Near →
        (u.tasks u.runningTask).preemptCount = 0 →
        ∃ v t, u.readyUp weight taskIpcCheck = some v ∧ schedStep weight s c = some t ∧
          v.Chosen t.runningTask := by
  have hinv : SchedInv weight True s :=
    hs.invariant (fun _ h => .init h hweight) fun _ _ t h hkeeps hstep =>
      h.step hweight (fun _ => hkeeps t hstep) hstep
  refine ⟨?_, fun c u taskIpcCheck hu hnear hcount => ?_⟩
  · obtain ⟨contents, hsound, hsorted⟩ := hinv.sound
    exact ⟨contents, hsound, hsorted trivial⟩
  · obtain ⟨t, ht, -, -, hchosen⟩ := hinv.schedule hweight hu fun _ => hnear
    obtain ⟨v, hv, hnext⟩ := hchosen hcount trivial
    exact ⟨v, t, hv, ht, hnext⟩

/-- A yield of the main task. -/
theorem schedSystem_least_yield : ∃ s v t, SchedInit taskPrioToWeight s ∧
    s.readyUp taskPrioToWeight (fun _ => false) = some v ∧
      schedStep taskPrioToWeight s (.interrupt fun _ => false) = some t ∧
        v.Chosen t.runningTask := by
  obtain ⟨s, hinit, hnear, hcount⟩ := exists_schedInit
  obtain ⟨v, t, hv, ht, hchosen⟩ := (schedSystem_least taskPrioToWeight_lt (.init hinit)).2
    (.interrupt fun _ => false) _ _ rfl hnear hcount
  exact ⟨s, v, t, hinit, hv, ht, hchosen⟩

end ClayFigure
