/-
# Where the scheduler keeps the tasks

Between two calls of `schedule` every task but the running one is in the list its status names,
or is the idle task and blocked. Inside of `schedule` one task at a time is in no list: the one
that leaves the CPU, one that is woken, the one that is chosen. Each operation on the lists moves
this task, and the runs follow from that.
-/

import ClayFigure.Math.Waiting
import ClayFigure.Task.ScheduleLists

namespace ClayFigure

open ClayFigure.Math

/-- The list a status names. -/
def Belongs : TaskStatus → SchedList → Prop
  | .ready, .taskList => True
  | .sending, .waitingList => True
  | .receiving, .waitingList => True
  | .waiting, .waitingList => True
  | .died, .exitedChildList _ => True
  | _, _ => False

namespace Sched

/-- The clocks of any two tasks are less than half of a word apart. -/
def Near (s : Sched) : Prop :=
  ∀ p q, (s.tasks p).exist = true → (s.tasks q).exist = true →
    (s.tasks p).vrunTime < (s.tasks q).vrunTime + halfWord

/-- The status with which the running task leaves the CPU. -/
def Leaves (s : Sched) : Prop :=
  (s.tasks s.runningTask).status = .running ∨ s.MayBlock (s.tasks s.runningTask).status

/-- Task `p` is in the list its status names, or is the idle task and blocked. -/
def At (s : Sched) (contents : SchedList → List Slot) (p : Slot) : Prop :=
  (∃ l, s.Used l ∧ p ∈ contents l ∧ Belongs (s.tasks p).status l) ∨
    (s.tasks p).status = .blocked ∧ p = s.idleTask

variable (weight : Nat → Nat) (ordered : Prop)

/-- The lists hold `contents`, and every task but those of `out`, which are in no list, is where its
status says. The ready tasks are in the order of their clocks where this is asked for. -/
structure Placed (s : Sched) (contents : SchedList → List Slot) (out : List Slot) : Prop where
  lists : s.links.Holds s.Used contents
  listed : ∀ l, s.Used l → ∀ p ∈ contents l,
    (s.tasks p).exist = true ∧ Belongs (s.tasks p).status l
  placed : ∀ p, (s.tasks p).exist = true → p ∉ out → s.At contents p
  loose : ∀ p ∈ out, (s.tasks p).exist = true ∧ Heap.Loose s.Used contents p
  idleExist : (s.tasks s.idleTask).exist = true
  idle : ∀ l, s.Used l → s.idleTask ∈ contents l → l = .taskList
  parent : ∀ p, (s.tasks p).exist = true →
    ∃ q : Slot, (s.tasks q).exist = true ∧ (s.tasks p).ppid = q
  sorted : ordered →
    (contents .taskList).Pairwise fun p q => (s.tasks p).vrunTime ≤ (s.tasks q).vrunTime
  runningTasks : s.runningTasks = (contents .taskList).length
  totalWeight : s.totalWeight =
    ((contents .taskList).map fun p => weight (s.tasks p).priority).sum % wordSize

/-- Only statuses, links and counters differ. -/
structure SameClocks (s t : Sched) : Prop where
  idleTask : t.idleTask = s.idleTask
  runningTask : t.runningTask = s.runningTask
  minVrunTime : t.minVrunTime = s.minVrunTime
  task : ∀ p, t.tasks p = { s.tasks p with status := (t.tasks p).status }

namespace SameClocks

variable {s t u : Sched}

theorem refl (s : Sched) : SameClocks s s := ⟨rfl, rfl, rfl, fun _ => rfl⟩

theorem trans (h : SameClocks s t) (h' : SameClocks t u) : SameClocks s u where
  idleTask := h'.idleTask.trans h.idleTask
  runningTask := h'.runningTask.trans h.runningTask
  minVrunTime := h'.minVrunTime.trans h.minVrunTime
  task p := by rw [h'.task p, h.task p]

theorem exist (h : SameClocks s t) (p : Slot) : (t.tasks p).exist = (s.tasks p).exist := by
  rw [h.task p]

theorem vrunTime (h : SameClocks s t) (p : Slot) :
    (t.tasks p).vrunTime = (s.tasks p).vrunTime := by
  rw [h.task p]

theorem priority (h : SameClocks s t) (p : Slot) :
    (t.tasks p).priority = (s.tasks p).priority := by
  rw [h.task p]

theorem ppid (h : SameClocks s t) (p : Slot) : (t.tasks p).ppid = (s.tasks p).ppid := by
  rw [h.task p]

theorem used (h : SameClocks s t) : t.Used = s.Used := by
  funext l
  cases l with
  | taskList | waitingList => rfl
  | exitedChildList p => simp only [Used, h.exist p]

theorem near (h : SameClocks s t) (hnear : s.Near) : t.Near := by
  intro p q hp hq
  rw [h.vrunTime, h.vrunTime]
  exact hnear p q (h.exist p ▸ hp) (h.exist q ▸ hq)

theorem setLinks (s : Sched) (k : Heap SchedList Slot) : SameClocks s (s.setLinks k) :=
  ⟨rfl, rfl, rfl, fun _ => rfl⟩

theorem setStatus (s : Sched) (p : Slot) (status : TaskStatus) :
    SameClocks s (s.setStatus p status) where
  idleTask := rfl
  runningTask := rfl
  minVrunTime := rfl
  task q := by
    simp only [Sched.setStatus, setTask]
    by_cases hq : q = p
    · rw [hq, Function.update_self]
    · rw [Function.update_of_ne hq]

end SameClocks

/-- The clock of a task. -/
def clock (s : Sched) (p : Slot) : Nat := (s.tasks p).vrunTime

/-- No dead task is revived, and where the ready tasks are in order only those of smaller clocks
get in front of another. -/
structure Moves (s t : Sched) (contents contents' : SchedList → List Slot) : Prop
    extends SameClocks s t where
  died : ∀ q, (s.tasks q).status = .died → (t.tasks q).status = .died
  joins : ordered → ∀ p ∈ contents .taskList,
    Joins s.clock p (contents .taskList) (contents' .taskList)

variable {weight ordered} {s t u : Sched} {contents contents' contents'' : SchedList → List Slot}
  {p q : Slot} {out : List Slot}

theorem SameClocks.clock_eq (h : SameClocks s t) : t.clock = s.clock := funext h.vrunTime

namespace Moves

theorem refl (s : Sched) (contents : SchedList → List Slot) : Moves ordered s s contents contents :=
  ⟨.refl s, fun _ => id, fun _ p _ => .refl p _⟩

theorem trans (h : Moves ordered s t contents contents')
    (h' : Moves ordered t u contents' contents'') : Moves ordered s u contents contents'' where
  toSameClocks := h.toSameClocks.trans h'.toSameClocks
  died q hq := h'.died q (h.died q hq)
  joins hordered p hp := by
    have hjoins := h.joins hordered p hp
    have hjoins' := h'.joins hordered p (hjoins.subset hp)
    rw [h.clock_eq] at hjoins'
    exact hjoins.trans hjoins'

/-- The ready tasks stay as they are. -/
theorem of_eq (hsame : SameClocks s t) (htasks : t.tasks = s.tasks)
    (hready : contents' .taskList = contents .taskList) : Moves ordered s t contents contents' where
  toSameClocks := hsame
  died _ hq := htasks ▸ hq
  joins _ p _ := hready ▸ .refl p _

end Moves

theorem setStatus_self (status : TaskStatus) :
    ((s.setStatus p status).tasks p).status = status := by
  simp [setStatus, setTask]

theorem setStatus_of_ne (hne : q ≠ p) (status : TaskStatus) :
    (s.setStatus p status).tasks q = s.tasks q := by
  simp [setStatus, setTask, hne]

theorem Near.isBefore (h : s.Near) (hp : (s.tasks p).exist = true)
    (hq : (s.tasks q).exist = true) :
    isBefore (s.tasks p).vrunTime (s.tasks q).vrunTime =
      decide ((s.tasks p).vrunTime < (s.tasks q).vrunTime) := by
  have hlt := h p q hp hq
  have hgt := h q p hq hp
  unfold ClayFigure.isBefore sub64
  unfold halfWord at hlt hgt
  unfold wordSize
  congr 1
  apply propext
  omega

namespace Placed

/-- A task that is in no list goes into the one its new status names. -/
theorem enter (h : Placed weight ordered s contents (p :: out)) (hp : p ∉ out) {t : Sched}
    (hsame : SameClocks s t)
    (hother : ∀ q, q ≠ p → (t.tasks q).status = (s.tasks q).status) {l : SchedList}
    (hl : s.Used l) (hbelongs : Belongs (t.tasks p).status l) {xs : List Slot}
    (hxs : ∀ q, q ∈ xs ↔ q = p ∨ q ∈ contents l)
    (hlists : t.links.Holds s.Used (Function.update contents l xs))
    (hidle : l ≠ .taskList → p ≠ s.idleTask)
    (hsorted : ordered → (Function.update contents l xs .taskList).Pairwise
      fun q r => (s.tasks q).vrunTime ≤ (s.tasks r).vrunTime)
    (hrunning : t.runningTasks = (Function.update contents l xs .taskList).length)
    (htotal : t.totalWeight = ((Function.update contents l xs .taskList).map
      fun q => weight (s.tasks q).priority).sum % wordSize) :
    Placed weight ordered t (Function.update contents l xs) out := by
  obtain ⟨hexist, hloose⟩ := h.loose p List.mem_cons_self
  have hmem (l' : SchedList) (q : Slot) : q ∈ Function.update contents l xs l' ↔
      (l' = l ∧ q = p) ∨ q ∈ contents l' := by
    by_cases heq : l' = l
    · subst heq
      rw [Function.update_self, hxs]
      simp
    · rw [Function.update_of_ne heq]
      simp [heq]
  refine ⟨hsame.used.symm ▸ hlists, fun l' hl' q hq => ?_, fun q hq hout => ?_,
    fun q hq => ?_, ?_, fun l' hl' hq => ?_, fun q hq => ?_, ?_, hrunning, ?_⟩
  · rw [hsame.used] at hl'
    rcases (hmem l' q).mp hq with ⟨rfl, rfl⟩ | hq
    · exact ⟨(hsame.exist q).trans hexist, hbelongs⟩
    · have hne : q ≠ p := fun heq => hloose l' hl' (heq ▸ hq)
      rw [hsame.exist, hother q hne]
      exact h.listed l' hl' q hq
  · unfold At
    rw [hsame.used, hsame.idleTask]
    by_cases hne : q = p
    · exact Or.inl ⟨l, hl, (hmem l q).mpr (Or.inl ⟨rfl, hne⟩), hne ▸ hbelongs⟩
    · rw [hother q hne]
      rcases h.placed q (hsame.exist q ▸ hq) (by simp [hne, hout]) with
        ⟨l', hl', hmem', hbel⟩ | hblocked
      · exact Or.inl ⟨l', hl', (hmem l' q).mpr (Or.inr hmem'), hbel⟩
      · exact Or.inr hblocked
  · obtain ⟨hqexist, hqloose⟩ := h.loose q (List.mem_cons_of_mem _ hq)
    rw [hsame.exist, hsame.used]
    refine ⟨hqexist, fun l' hl' hmem' => ?_⟩
    rcases (hmem l' q).mp hmem' with ⟨-, rfl⟩ | hmem'
    · exact hp hq
    · exact hqloose l' hl' hmem'
  · rw [hsame.idleTask, hsame.exist]
    exact h.idleExist
  · rw [hsame.used] at hl'
    rw [hsame.idleTask] at hq
    rcases (hmem l' _).mp hq with ⟨rfl, heq⟩ | hq
    · by_contra hne
      exact hidle hne heq.symm
    · exact h.idle l' hl' hq
  · obtain ⟨r, hr, hppid⟩ := h.parent q (hsame.exist q ▸ hq)
    exact ⟨r, (hsame.exist r).trans hr, (hsame.ppid q).trans hppid⟩
  · simpa only [hsame.vrunTime] using hsorted
  · simpa only [hsame.priority] using htotal

/-- A task goes out of the list it is in. -/
theorem leave (h : Placed weight ordered s contents out) {t : Sched} (htasks : t.tasks = s.tasks)
    (hidle : t.idleTask = s.idleTask) {l : SchedList} (hl : s.Used l) (hp : p ∈ contents l)
    {xs : List Slot} (hxs : ∀ q, q ∈ xs ↔ q ≠ p ∧ q ∈ contents l)
    (hlists : t.links.Holds s.Used (Function.update contents l xs))
    (hsorted : ordered → (Function.update contents l xs .taskList).Pairwise
      fun q r => (s.tasks q).vrunTime ≤ (s.tasks r).vrunTime)
    (hrunning : t.runningTasks = (Function.update contents l xs .taskList).length)
    (htotal : t.totalWeight = ((Function.update contents l xs .taskList).map
      fun q => weight (s.tasks q).priority).sum % wordSize) :
    Placed weight ordered t (Function.update contents l xs) (p :: out) := by
  have hmem (l' : SchedList) (hl' : s.Used l') (q : Slot) :
      q ∈ Function.update contents l xs l' ↔ q ≠ p ∧ q ∈ contents l' := by
    by_cases heq : l' = l
    · subst heq
      rw [Function.update_self, hxs]
    · rw [Function.update_of_ne heq]
      refine ⟨fun hq => ⟨?_, hq⟩, And.right⟩
      rintro rfl
      exact heq (h.lists.disjoint l' l hl' hl q hq hp)
  have hused : t.Used = s.Used := by
    funext l'
    cases l' with
    | taskList | waitingList => rfl
    | exitedChildList r => simp only [Used, htasks]
  refine ⟨hused.symm ▸ hlists, fun l' hl' q hq => ?_, fun q hq hne => ?_, fun q hq => ?_, ?_,
    fun l' hl' hq => ?_, ?_, ?_, hrunning, ?_⟩
  · rw [hused] at hl'
    rw [htasks]
    exact h.listed l' hl' q ((hmem l' hl' q).mp hq).2
  · unfold At
    rw [hused, hidle]
    rw [htasks] at hq ⊢
    rw [List.mem_cons, not_or] at hne
    rcases h.placed q hq hne.2 with ⟨l', hl', hmem', hbel⟩ | hblocked
    · exact Or.inl ⟨l', hl', (hmem l' hl' q).mpr ⟨hne.1, hmem'⟩, hbel⟩
    · exact Or.inr hblocked
  · rw [htasks, hused]
    rcases List.mem_cons.mp hq with rfl | hq
    · refine ⟨(h.listed l hl q hp).1, fun l' hl' hmem' => ?_⟩
      exact ((hmem l' hl' q).mp hmem').1 rfl
    · obtain ⟨hexist, hloose⟩ := h.loose q hq
      exact ⟨hexist, fun l' hl' hmem' => hloose l' hl' ((hmem l' hl' q).mp hmem').2⟩
  · rw [hidle, htasks]
    exact h.idleExist
  · rw [hused] at hl'
    rw [hidle] at hq
    exact h.idle l' hl' ((hmem l' hl' _).mp hq).2
  · rw [htasks]
    exact h.parent
  · rw [htasks]
    exact hsorted
  · rw [htasks]
    exact htotal

/-! ## The operations of `schedule` -/

/-- `task_list_insert` keeps the clocks of the ready tasks in order. -/
theorem insert (h : Placed weight ordered s contents (p :: out)) (hp : p ∉ out)
    (hnear : ordered → s.Near) :
    ∃ t pre post, contents .taskList = pre ++ post ∧ s.taskListInsert weight p = some t ∧
      SameClocks s t ∧ (∀ q, q ≠ p → (t.tasks q).status = (s.tasks q).status) ∧
      Placed weight ordered t (Function.update contents .taskList (pre ++ p :: post)) out ∧
      (ordered → ∀ q ∈ post, s.clock p < s.clock q) := by
  obtain ⟨hexist, hloose⟩ := h.loose p List.mem_cons_self
  have hused : s.Used .taskList := trivial
  obtain ⟨pre, post, k, hsplit, hplace, hlists, heq⟩ :=
    taskListInsert_eq weight h.lists hused hloose
  have hkeep := (SameClocks.setLinks s k).trans (SameClocks.setStatus (s.setLinks k) p .ready)
  set t : Sched := { (s.setLinks k).setStatus p .ready with
    runningTasks := add64 s.runningTasks 1
    totalWeight := add64 s.totalWeight (weight (s.tasks p).priority) }
  have hsame : SameClocks s t :=
    ⟨hkeep.idleTask, hkeep.runningTask, hkeep.minVrunTime, hkeep.task⟩
  have hother (q : Slot) (hne : q ≠ p) : (t.tasks q).status = (s.tasks q).status :=
    congrArg SchedTask.status (setStatus_of_ne hne .ready)
  have hin (q : Slot) (hq : q ∈ contents .taskList) : (s.tasks q).exist = true :=
    (h.listed .taskList hused q hq).1
  have hbehind (hordered : ordered) (q : Slot) (hq : q ∈ post) : s.clock p < s.clock q := by
    have hsorted := h.sorted hordered
    rw [hsplit, List.pairwise_append] at hsorted
    cases post with
    | nil => exact absurd hq List.not_mem_nil
    | cons r post =>
        have htrue := hplace.post r rfl
        rw [(hnear hordered).isBefore hexist (hin r (by simp [hsplit])), decide_eq_true_eq] at htrue
        rcases List.mem_cons.mp hq with rfl | hq
        · exact htrue
        · exact htrue.trans_le ((List.pairwise_cons.mp hsorted.2.1).1 q hq)
  refine ⟨t, pre, post, hsplit, heq, hsame, hother, ?_, hbehind⟩
  refine h.enter hp hsame hother hused ?_ (fun q => ?_) hlists (fun hne => absurd rfl hne)
    ?_ ?_ ?_
  · change Belongs (((s.setLinks k).setStatus p .ready).tasks p).status .taskList
    rw [setStatus_self]
    trivial
  · rw [hsplit, List.mem_append, List.mem_cons, List.mem_append]
    tauto
  · intro hordered
    have hbefore (q : Slot) := (hnear hordered).isBefore (q := q) hexist
    have hsorted := h.sorted hordered
    rw [hsplit, List.pairwise_append] at hsorted
    obtain ⟨hpre, hpost, hcross⟩ := hsorted
    rw [Function.update_self, List.pairwise_append]
    refine ⟨hpre, List.pairwise_cons.mpr ⟨fun q hq => (hbehind hordered q hq).le, hpost⟩,
      fun q hq r hr => ?_⟩
    · rcases List.mem_cons.mp hr with rfl | hr
      · have hfalse := hplace.pre q hq
        rw [hbefore q (hin q (by simp [hsplit, hq])), decide_eq_false_iff_not] at hfalse
        exact Nat.le_of_not_lt hfalse
      · exact hcross q hq r hr
  · have hle := (h.lists.nodup .taskList hused).length_le_card
    rw [Fintype.card_fin] at hle
    change add64 s.runningTasks 1 = _
    rw [h.runningTasks, Function.update_self, hsplit, add64_of_lt]
    · simp only [List.length_append, List.length_cons]
      omega
    · rw [← hsplit]
      unfold numTasks at hle
      unfold wordSize
      omega
  · change add64 s.totalWeight (weight (s.tasks p).priority) = _
    rw [h.totalWeight, Function.update_self, hsplit]
    simp only [add64, List.map_append, List.map_cons, List.sum_append, List.sum_cons,
      Nat.mod_add_mod]
    congr 1
    omega

/-- Only tasks of greater clocks are behind a task that has been inserted. -/
theorem movesInsert (h : Placed weight ordered s contents (p :: out))
    (hstatus : (s.tasks p).status ≠ .died) {pre post : List Slot}
    (hsplit : contents .taskList = pre ++ post) (hsame : SameClocks s t)
    (hother : ∀ q, q ≠ p → (t.tasks q).status = (s.tasks q).status)
    (hpost : ordered → ∀ q ∈ post, s.clock p < s.clock q) :
    Moves ordered s t contents (Function.update contents .taskList (pre ++ p :: post)) where
  toSameClocks := hsame
  died q hq := by
    rw [hother q (by rintro rfl; exact hstatus hq)]
    exact hq
  joins hordered q hq := by
    have hnot := (h.loose p List.mem_cons_self).2 .taskList trivial
    rw [hsplit] at hq hnot
    rw [Function.update_self, hsplit]
    exact .insert hnot hq (hpost hordered)

/-- A task that waits goes to the end of the waiting list. -/
theorem appendWaiting (h : Placed weight ordered s contents [p])
    (hstatus : Belongs (s.tasks p).status .waitingList) (hidle : p ≠ s.idleTask) :
    ∃ k, s.links.listAppend .waitingList (.elem p) = some k ∧
      Placed weight ordered (s.setLinks k)
        (Function.update contents .waitingList (contents .waitingList ++ [p])) [] := by
  have hused : s.Used .waitingList := trivial
  obtain ⟨k, hk, hlists⟩ := h.lists.listAppend hused (h.loose p List.mem_cons_self).2
  have hready : Function.update contents .waitingList (contents .waitingList ++ [p]) .taskList =
      contents .taskList := Function.update_of_ne (by decide) ..
  refine ⟨k, hk, h.enter List.not_mem_nil (SameClocks.setLinks s k) (fun _ _ => rfl) hused hstatus
    (fun q => ?_) hlists (fun _ => hidle) ?_ ?_ ?_⟩
  · rw [List.mem_append, List.mem_singleton]
    exact or_comm
  · rw [hready]
    exact h.sorted
  · rw [hready]
    exact h.runningTasks
  · rw [hready]
    exact h.totalWeight

theorem pidToTask_coe (hq : (s.tasks q).exist = true) : s.pidToTask q = some q := by
  unfold pidToTask
  rw [dif_pos q.isLt, if_pos hq]

/-- A task that has died goes to the list of its parent. -/
theorem informExit (h : Placed weight ordered s contents [p]) (hstatus : (s.tasks p).status = .died)
    (hidle : p ≠ s.idleTask) :
    ∃ t contents', s.informExit p = some t ∧ Moves ordered s t contents contents' ∧
      Placed weight ordered t contents' [] := by
  obtain ⟨hexist, hloose⟩ := h.loose p List.mem_cons_self
  obtain ⟨parent, hparent, hppid⟩ := h.parent p hexist
  have hused : s.Used (.exitedChildList parent) := hparent
  obtain ⟨k, hk, hlists⟩ := h.lists.listAppend hused hloose
  have hready : Function.update contents (.exitedChildList parent)
      (contents (.exitedChildList parent) ++ [p]) .taskList = contents .taskList :=
    Function.update_of_ne (by simp) ..
  refine ⟨s.setLinks k, _, ?_, .of_eq (SameClocks.setLinks s k) rfl hready,
    h.enter List.not_mem_nil (SameClocks.setLinks s k) (fun _ _ => rfl) hused ?_ (fun q => ?_)
      hlists (fun _ => hidle) ?_ ?_ ?_⟩
  · simp [Sched.informExit, hppid, pidToTask_coe hparent, hk]
  · change Belongs (s.tasks p).status _
    rw [hstatus]
    trivial
  · rw [List.mem_append, List.mem_singleton]
    exact or_comm
  · rw [hready]
    exact h.sorted
  · rw [hready]
    exact h.runningTasks
  · rw [hready]
    exact h.totalWeight

/-- A task in no list is out. -/
theorem weaken (h : Placed weight ordered s contents out) (hexist : (s.tasks p).exist = true)
    (hloose : Heap.Loose s.Used contents p) : Placed weight ordered s contents (p :: out) where
  lists := h.lists
  listed := h.listed
  placed q hq hout := h.placed q hq fun hmem => hout (List.mem_cons_of_mem _ hmem)
  loose := List.forall_mem_cons.mpr ⟨⟨hexist, hloose⟩, h.loose⟩
  idleExist := h.idleExist
  idle := h.idle
  parent := h.parent
  sorted := h.sorted
  runningTasks := h.runningTasks
  totalWeight := h.totalWeight

/-- A task is taken out of the waiting list. -/
theorem removeWaiting (h : Placed weight ordered s contents []) {pre post : List Slot}
    (hsplit : contents .waitingList = pre ++ p :: post) :
    ∃ k, s.links.listRemove (.elem p) = some k ∧
      Placed weight ordered (s.setLinks k)
        (Function.update contents .waitingList (pre ++ post)) [p] := by
  have hused : s.Used .waitingList := trivial
  obtain ⟨k, hk, hlists⟩ := h.lists.listRemove hused pre post hsplit
  have hready : Function.update contents .waitingList (pre ++ post) .taskList =
      contents .taskList := Function.update_of_ne (by decide) ..
  have hnodup := h.lists.nodup .waitingList hused
  rw [hsplit, List.nodup_middle] at hnodup
  have hnot := (List.nodup_cons.mp hnodup).1
  refine ⟨k, hk, h.leave (t := s.setLinks k) (p := p) rfl rfl hused (by simp [hsplit])
    (fun q => ?_) hlists ?_ ?_ ?_⟩
  · rw [hsplit]
    constructor
    · intro hq
      refine ⟨fun heq => hnot (heq ▸ hq), ?_⟩
      simp only [List.mem_append, List.mem_cons] at hq ⊢
      tauto
    · rintro ⟨hne, hq⟩
      simp only [List.mem_append, List.mem_cons] at hq ⊢
      tauto
  · rw [hready]
    exact h.sorted
  · rw [hready]
    exact h.runningTasks
  · rw [hready]
    exact h.totalWeight

/-- The loop of `check_waiting_list` from the first of `rest` on. -/
theorem checkFrom (taskIpcCheck : Slot → Bool) {fuel : Nat} :
    ∀ {s : Sched} {contents : SchedList → List Slot} {pre rest : List Slot} {p : Slot},
      Placed weight ordered s contents [] → (ordered → s.Near) →
      contents .waitingList = pre ++ p :: rest → rest.length < fuel →
      ∃ t contents', s.checkFrom weight taskIpcCheck fuel (.elem p) = some t ∧
        Moves ordered s t contents contents' ∧ Placed weight ordered t contents' [] := by
  induction fuel with
  | zero => exact fun _ _ _ hlen => absurd hlen (Nat.not_lt_zero _)
  | succ fuel ih =>
      intro s contents pre rest p h hnear hsplit hlen
      have hused : s.Used .waitingList := trivial
      have hnext := h.lists.next_elem hused hsplit
      -- the body leaves the rest of the list behind the task as it is
      obtain ⟨t, contents', pre', hbody, hsame, hplaced, hrest⟩ : ∃ t contents' pre',
          s.checkTask weight taskIpcCheck p = some t ∧ Moves ordered s t contents contents' ∧
          Placed weight ordered t contents' [] ∧ contents' .waitingList = pre' ++ rest := by
        unfold checkTask
        simp only
        split
        · exact ⟨s, contents, pre ++ [p], rfl, .refl s _, h, by simpa using hsplit⟩
        · split
          · exact ⟨s, contents, pre ++ [p], rfl, .refl s _, h, by simpa using hsplit⟩
          · obtain ⟨k, hk, hout⟩ := h.removeWaiting hsplit
            have hsame := SameClocks.setLinks s k
            obtain ⟨t, pre', post', hready, hinsert, hsame', hother, hin, hpost⟩ :=
              hout.insert List.not_mem_nil fun hordered => hsame.near (hnear hordered)
            have hexist := (hout.loose p List.mem_cons_self).1
            have hkeep : Function.update contents .waitingList (pre ++ rest) .taskList =
                contents .taskList := Function.update_of_ne (by decide) ..
            have hleft : Moves ordered s (s.setLinks k) contents _ := .of_eq hsame rfl hkeep
            have hstatus : (s.tasks p).status ≠ .died := fun hdied => by
              have hbelongs := (h.listed .waitingList hused p (by simp [hsplit])).2
              rw [hdied] at hbelongs
              exact hbelongs
            refine ⟨t, _, pre, ?_,
              hleft.trans (hout.movesInsert hstatus hready hsame' hother hpost), hin, ?_⟩
            · simp [hk, taskUnblock, taskUnblockSub, pidToTask_coe hexist, hinsert]
            · rw [Function.update_of_ne (by decide), Function.update_self]
      cases rest with
      | nil =>
          refine ⟨t, contents', ?_, hsame, hplaced⟩
          simp [Sched.checkFrom, hnext, hbody]
      | cons q rest =>
          obtain ⟨u, contents'', hloop, hsame', hplaced'⟩ := ih hplaced
            (fun hordered => hsame.near (hnear hordered)) hrest (Nat.lt_of_succ_lt_succ hlen)
          refine ⟨u, contents'', ?_, hsame.trans hsame', hplaced'⟩
          simp [Sched.checkFrom, hnext, hbody, hloop]

/-- `check_waiting_list`. -/
theorem checkWaitingList (h : Placed weight ordered s contents []) (hnear : ordered → s.Near)
    (taskIpcCheck : Slot → Bool) :
    ∃ t contents', s.checkWaitingList weight taskIpcCheck = some t ∧
      Moves ordered s t contents contents' ∧ Placed weight ordered t contents' [] := by
  have hused : s.Used .waitingList := trivial
  cases hwait : contents .waitingList with
  | nil =>
      exact ⟨s, contents, checkWaitingList_nil weight h.lists hused hwait taskIpcCheck,
        .refl s _, h⟩
  | cons p rest =>
      have hempty : s.links.listEmpty .waitingList = false := by
        rw [Bool.eq_false_iff, ne_eq, h.lists.listEmpty_iff hused, hwait]
        simp
      have hhead := h.lists.next_head hused
      rw [hwait, Heap.behind_cons] at hhead
      have hlen : rest.length < numTasks + 1 := by
        have hle := (h.lists.nodup .waitingList hused).length_le_card
        rw [Fintype.card_fin, hwait, List.length_cons] at hle
        omega
      have hsplit : contents .waitingList = [] ++ p :: rest := hwait
      obtain ⟨t, contents', hloop, hsame, hplaced⟩ :=
        h.checkFrom taskIpcCheck hnear hsplit hlen
      refine ⟨t, contents', ?_, hsame, hplaced⟩
      simp [Sched.checkWaitingList, hempty, hhead, hloop]

/-- The first ready task is the one that is chosen, and the idle task if none is ready. -/
theorem getNextTask (h : Placed weight ordered s contents []) (hnear : ordered → s.Near)
    (hweight : ∀ n, weight n < wordSize) :
    ∃ next t contents', s.getNextTask weight = some (next, t) ∧ SameClocks s t ∧
      Placed weight ordered t contents' [next] ∧
      ((contents .taskList = [] ∧ next = s.idleTask) ∨
        (contents .taskList = next :: contents' .taskList ∧ t.tasks = s.tasks ∧ (ordered →
          ∀ q ∈ contents .taskList, (s.tasks next).vrunTime ≤ (s.tasks q).vrunTime))) := by
  have hused : s.Used .taskList := trivial
  -- the counters count one task less
  have hcount {u : Sched} {xs : SchedList → List Slot} {next : Slot} {rest : List Slot}
      (hu : Placed weight ordered u xs []) (hcons : xs .taskList = next :: rest) :
      sub64 u.runningTasks 1 = rest.length ∧
        sub64 u.totalWeight (weight (u.tasks next).priority) =
          (rest.map fun q => weight (u.tasks q).priority).sum % wordSize := by
    have hrunning := hu.runningTasks
    have htotal := hu.totalWeight
    have hle := (hu.lists.nodup .taskList trivial).length_le_card
    have hlt := hweight (u.tasks next).priority
    rw [hcons] at hrunning htotal hle
    rw [Fintype.card_fin] at hle
    rw [hrunning, htotal]
    simp only [List.length_cons, List.map_cons, List.sum_cons] at hle ⊢
    unfold numTasks at hle
    unfold sub64 wordSize at *
    omega
  cases hready : contents .taskList with
  | cons next rest =>
      obtain ⟨k, hk, heq⟩ := getNextTask_eq weight h.lists hused hready
      have hnodup := h.lists.nodup .taskList hused
      have hsorted := h.sorted
      rw [hready] at hnodup hsorted
      obtain ⟨hrunning, htotal⟩ := hcount h hready
      set t : Sched := { s.setLinks k with
        runningTasks := sub64 s.runningTasks 1
        totalWeight := sub64 s.totalWeight (weight (s.tasks next).priority) }
      have hplaced : Placed weight ordered t (Function.update contents .taskList rest) [next] := by
        refine h.leave (t := t) (p := next) rfl rfl hused (by simp [hready]) (fun q => ?_) hk
          (fun hordered => ?_) ?_ ?_
        · rw [hready, List.mem_cons]
          have hnot := (List.nodup_cons.mp hnodup).1
          constructor
          · exact fun hq => ⟨fun heq => hnot (heq ▸ hq), Or.inr hq⟩
          · exact fun ⟨hne, hq⟩ => hq.resolve_left hne
        · rw [Function.update_self]
          exact (List.pairwise_cons.mp (hsorted hordered)).2
        · rw [Function.update_self]
          exact hrunning
        · rw [Function.update_self]
          exact htotal
      refine ⟨next, t, _, heq, ⟨rfl, rfl, rfl, fun _ => rfl⟩, hplaced,
        Or.inr ⟨by rw [Function.update_self], rfl, ?_⟩⟩
      intro hordered q hq
      rcases List.mem_cons.mp hq with rfl | hq
      · exact le_rfl
      · exact (List.pairwise_cons.mp (hsorted hordered)).1 q hq
  | nil =>
      have hloose : Heap.Loose s.Used contents s.idleTask := by
        intro l hl hmem
        rw [h.idle l hl hmem, hready] at hmem
        exact List.not_mem_nil hmem
      have hempty := (h.lists.listEmpty_iff hused).mpr hready
      obtain ⟨u, pre, post, hsplit, hinsert, hsame, -, hu, -⟩ :=
        (h.weaken h.idleExist hloose).insert List.not_mem_nil hnear
      obtain ⟨rfl, rfl⟩ := List.append_eq_nil_iff.mp (hsplit.symm.trans hready)
      rw [List.nil_append] at hu
      have hused' : u.Used .taskList := trivial
      have honly := Function.update_self SchedList.taskList [s.idleTask] contents
      obtain ⟨k, hk, hlists⟩ := hu.lists.listRemove hused' [] [] honly
      obtain ⟨hrunning, htotal⟩ := hcount hu honly
      set t : Sched := { u.setLinks k with
        runningTasks := sub64 u.runningTasks 1
        totalWeight := sub64 u.totalWeight (weight (u.tasks s.idleTask).priority) }
      have hplaced : Placed weight ordered t
          (Function.update (Function.update contents .taskList [s.idleTask]) .taskList [])
          [s.idleTask] := by
        refine hu.leave (t := t) (p := s.idleTask) rfl rfl hused' (by simp) (fun q => ?_)
          hlists (fun _ => ?_) ?_ ?_
        · rw [honly]
          simp
        · rw [Function.update_self]
          exact List.Pairwise.nil
        · rw [Function.update_self]
          exact hrunning
        · rw [Function.update_self]
          exact htotal
      refine ⟨s.idleTask, t, _, ?_,
        ⟨hsame.idleTask, hsame.runningTask, hsame.minVrunTime, hsame.task⟩, hplaced,
        Or.inl ⟨rfl, rfl⟩⟩
      simp [Sched.getNextTask, hempty, taskUnblockSub, pidToTask_coe h.idleExist, hinsert,
        hsame.idleTask, hk, Sched.setLinks, t]

/-- The running task is put away. -/
theorem putAway (h : Placed weight ordered s contents [s.runningTask]) (hleaves : Leaves s)
    (hnear : ordered → s.Near) :
    ∃ t contents', s.putAway weight = some t ∧ Moves ordered s t contents contents' ∧
      Placed weight ordered t contents' [] := by
  unfold Sched.putAway
  have hwaits (hidle : s.runningTask ≠ s.idleTask)
      (hstatus : Belongs (s.tasks s.runningTask).status .waitingList) :
      ∃ t contents', (do
          let k ← s.links.listAppend .waitingList (.elem s.runningTask)
          return s.setLinks k) = some t ∧ Moves ordered s t contents contents' ∧
        Placed weight ordered t contents' [] := by
    obtain ⟨k, hk, hplaced⟩ := h.appendWaiting hstatus hidle
    exact ⟨s.setLinks k, _, by simp [hk],
      .of_eq (SameClocks.setLinks s k) rfl (Function.update_of_ne (by decide) ..), hplaced⟩
  rcases hleaves with hrun | hblock
  · obtain ⟨t, pre, post, hsplit, hinsert, hsame, hother, hplaced, hpost⟩ :=
      h.insert List.not_mem_nil hnear
    have hmoves := h.movesInsert (by simp [hrun]) hsplit hsame hother hpost
    simp only [hrun]
    exact ⟨t, _, hinsert, hmoves, hplaced⟩
  · unfold MayBlock at hblock
    split at hblock
    · next hidle =>
        simp only [hblock]
        refine ⟨s, contents, rfl, .refl s _, h.lists, h.listed, fun q hq _ => ?_, by simp,
          h.idleExist, h.idle, h.parent, h.sorted, h.runningTasks, h.totalWeight⟩
        by_cases heq : q = s.runningTask
        · exact Or.inr ⟨heq ▸ hblock, heq.trans hidle⟩
        · exact h.placed q hq (by simpa using heq)
    · next hidle =>
        rcases hblock with hstatus | hstatus | hstatus | hstatus
        · simp only [hstatus]
          exact hwaits hidle (hstatus ▸ trivial)
        · simp only [hstatus]
          exact hwaits hidle (hstatus ▸ trivial)
        · simp only [hstatus]
          exact hwaits hidle (hstatus ▸ trivial)
        · simp only [hstatus]
          exact h.informExit hstatus hidle

end Placed

end Sched

end ClayFigure
