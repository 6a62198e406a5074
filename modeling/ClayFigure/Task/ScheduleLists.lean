/-
# The ready list

What `task_list_insert` does to the list of ready tasks: it puts the task behind every task
it does not come before, up to the first it does. The comparison is that of the difference
of the two clocks as a signed word, and is the usual one as long as both are small.
-/

import Mathlib.Data.Fintype.Card
import ClayFigure.Task.Schedule

namespace ClayFigure

open ClayFigure.Math

/-- Half of the values of a word, from which a difference counts as negative. -/
abbrev halfWord : Nat := 0x8000000000000000

theorem isBefore_eq_lt {a b : Nat} (ha : a < halfWord) (hb : b < halfWord) :
    isBefore a b = decide (a < b) := by
  unfold isBefore sub64
  unfold halfWord at ha hb
  unfold wordSize
  congr 1
  apply propext
  omega

theorem maxVruntime_eq_max {a b : Nat} (ha : a < halfWord) (hb : b < halfWord) :
    maxVruntime a b = max a b := by
  unfold maxVruntime
  rw [isBefore_eq_lt ha hb]
  unfold sub64
  unfold halfWord at ha hb
  unfold wordSize
  rcases Nat.lt_or_ge b a with hlt | hge
  · rw [if_pos ⟨by omega, by simp; omega⟩, Nat.max_eq_left (Nat.le_of_lt hlt)]
  · rw [if_neg, Nat.max_eq_right hge]
    simp only [decide_eq_true_eq, not_and, not_not]
    omega

namespace Sched

variable (weight : Nat → Nat) {s : Sched} {used : SchedList → Prop}
  {contents : SchedList → List Slot} {task : Slot}

/-- The task would be inserted between `pre` and `post`. -/
structure PlaceOf (s : Sched) (task : Slot) (pre post : List Slot) : Prop where
  pre : ∀ x ∈ pre, isBefore (s.tasks task).vrunTime (s.tasks x).vrunTime = false
  post : ∀ x ∈ post.head?, isBefore (s.tasks task).vrunTime (s.tasks x).vrunTime = true

/-- The loop of `task_list_insert`. -/
theorem findPlace_eq (task : Slot) (h : s.links.Holds used contents) (hused : used .taskList)
    {fuel : Nat} :
    ∀ pre post, contents .taskList = pre ++ post → post.length < fuel →
      ∃ mid back, post = mid ++ back ∧ s.PlaceOf task mid back ∧
        s.findPlace task fuel (Heap.behind .taskList post) =
          some (Heap.behind .taskList back) := by
  induction fuel with
  | zero => exact fun _ _ _ hlen => absurd hlen (by omega)
  | succ fuel ih =>
      intro pre post hsplit hlen
      cases post with
      | nil => exact ⟨[], [], rfl, ⟨by simp, by simp⟩, by simp [findPlace]⟩
      | cons x post =>
          rw [List.length_cons] at hlen
          cases hbefore : isBefore (s.tasks task).vrunTime (s.tasks x).vrunTime with
          | true =>
              refine ⟨[], x :: post, rfl, ⟨by simp, by simp [hbefore]⟩, ?_⟩
              simp [findPlace, hbefore]
          | false =>
              obtain ⟨mid, back, rfl, hplace, hfind⟩ := ih (pre ++ [x]) post (by simpa using hsplit)
                (by omega)
              have hnext := h.next_elem hused hsplit
              refine ⟨x :: mid, back, rfl, ⟨fun y hy => ?_, hplace.post⟩, ?_⟩
              · rcases List.mem_cons.mp hy with rfl | hy
                · exact hbefore
                · exact hplace.pre y hy
              · simp [findPlace, hbefore, hnext, hfind]

/-- `task_list_insert` of a task that is in no list. -/
theorem taskListInsert_eq (h : s.links.Holds used contents) (hused : used .taskList)
    (hloose : Heap.Loose used contents task) :
    ∃ pre post k, contents .taskList = pre ++ post ∧ s.PlaceOf task pre post ∧
      Heap.Holds k used (Function.update contents .taskList (pre ++ task :: post)) ∧
      s.taskListInsert weight task = some { (s.setLinks k).setStatus task .ready with
        runningTasks := add64 s.runningTasks 1
        totalWeight := add64 s.totalWeight (weight (s.tasks task).priority) } := by
  have hlen : (contents .taskList).length < numTasks + 1 := by
    have hle := (h.nodup .taskList hused).length_le_card
    rw [Fintype.card_fin] at hle
    omega
  have hfind : s.links.listFind .taskList (.elem task) (numTasks + 1) = some false := by
    rw [h.listFind hused hlen, decide_eq_false (hloose .taskList hused)]
  obtain ⟨pre, post, hsplit, hplace, hnode⟩ := findPlace_eq task h hused [] _ rfl hlen
  obtain ⟨k, hk, hlists⟩ := h.listIn hused pre post hsplit hloose
  refine ⟨pre, post, k, hsplit, hplace, hlists, ?_⟩
  simp [taskListInsert, hfind, h.next_head hused, hnode, hk]

/-- `get_next_task` when a task is ready. -/
theorem getNextTask_eq (h : s.links.Holds used contents) (hused : used .taskList)
    {next : Slot} {rest : List Slot} (hcons : contents .taskList = next :: rest) :
    ∃ k, Heap.Holds k used (Function.update contents .taskList rest) ∧
      s.getNextTask weight = some (next, { s.setLinks k with
        runningTasks := sub64 s.runningTasks 1
        totalWeight := sub64 s.totalWeight (weight (s.tasks next).priority) }) := by
  have hready : s.links.listEmpty .taskList = false := by
    rw [Bool.eq_false_iff, Ne, h.listEmpty_iff hused, hcons]
    simp
  obtain ⟨k, hpop, hk⟩ := h.listPop hused hcons
  refine ⟨k, hk, ?_⟩
  simp [getNextTask, hready, hpop, setLinks]

/-- `check_waiting_list` when no task waits. -/
theorem checkWaitingList_nil (h : s.links.Holds used contents) (hused : used .waitingList)
    (hnil : contents .waitingList = []) (taskIpcCheck : Slot → Bool) :
    s.checkWaitingList weight taskIpcCheck = some s := by
  rw [checkWaitingList, if_pos ((h.listEmpty_iff hused).mpr hnil)]

end Sched

end ClayFigure
