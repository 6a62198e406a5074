/-
# Semaphores

`sync/semaphore.c` on one CPU: interrupts are off inside a call, so tasks change only where
`sema_down` blocks, or between calls. The list of waiters and the list of ready tasks link
the same node of a task. `sema_up` wakes the first waiter but keeps the unit in `value`; the
woken task tests again when it runs and may find that another one has taken it.
-/

import Mathlib.Data.Fintype.Card
import ClayFigure.Task.Schedule

namespace ClayFigure

open ClayFigure.Math

/-! ## The code -/

/-- The lists that link `general_tag`. -/
inductive SemaList
  | waiters
  | taskList
  deriving DecidableEq

/-- A semaphore and the tasks that use it; `running` is `none` when the idle task runs.
`inDown` is that the task is in a call of `sema_down`; `ups` and `downs` count the calls
that have been completed. These three are kept by the steps, not by the code. -/
structure Sema (τ : Type) where
  value : Nat
  links : Heap SemaList τ
  status : τ → TaskStatus
  running : Option τ
  inDown : τ → Bool
  ups : Nat
  downs : Nat

namespace Sema

variable {τ : Type} [DecidableEq τ] [Fintype τ]

/-- `get_next_task` and the switch to it. -/
def switchNext (s : Sema τ) : Option (Sema τ) :=
  if s.links.listEmpty .taskList then some { s with running := none }
  else
    match s.links.listPop .taskList with
    | some (.elem next, k) =>
        some { s with
          links := k
          running := some next
          status := Function.update s.status next .running }
    | _ => none

/-- `task_list_insert`; `before` is what the comparison of the clocks answers. -/
def taskListInsert (s : Sema τ) (before : τ → Bool) (task : τ) : Option (Sema τ) := do
  if ← s.links.listFind .taskList (.elem task) (Fintype.card τ + 1) then return s
  let node ← s.links.placeFrom .taskList before (Fintype.card τ + 1)
    (← s.links.next (.head .taskList))
  let k ← s.links.listIn (.elem task) node
  return { s with links := k, status := Function.update s.status task .ready }

/-- `task_block(TASK_BLOCKED)`: the running task goes into no list. -/
def taskBlock (s : Sema τ) (p : τ) : Option (Sema τ) :=
  switchNext { s with status := Function.update s.status p .blocked }

/-- `sema_down` from a test of the loop to the next, or to its end, and whether it has come to
its end; `none` is a failed `ASSERT`. -/
def semaDown (s : Sema τ) (p : τ) : Option (Bool × Sema τ) :=
  if s.value = 0 then do
    if ← s.links.listFind .waiters (.elem p) (Fintype.card τ + 1) then none
    else
      let k ← s.links.listAppend .waiters (.elem p)
      return (false, ← taskBlock { s with links := k } p)
  else some (true, { s with value := sub64 s.value 1 })

/-- The first half of `sema_up`. -/
def wakeFirst (s : Sema τ) (before : τ → Bool) : Option (Sema τ) :=
  if s.links.listEmpty .waiters then some s
  else
    match s.links.listPop .waiters with
    | some (.elem blockedTask, k) => taskListInsert { s with links := k } before blockedTask
    | _ => none

/-- `sema_up`. -/
def semaUp (s : Sema τ) (before : τ → Bool) : Option (Sema τ) := do
  let s ← s.wakeFirst before
  return { s with value := add64 s.value 1 }

/-! ## Runs -/

/-- What is noted of a test of `sema_down` by the task `p`. -/
def noteDown (s : Sema τ) (p : τ) (returned : Bool) : Sema τ :=
  { s with
    inDown := Function.update s.inDown p (!returned)
    downs := if returned then s.downs + 1 else s.downs }

/-- A test of `sema_down` as a step. -/
def downStep (s : Sema τ) (p : τ) : Option (Sema τ) := do
  let (returned, t) ← s.semaDown p
  return t.noteDown p returned

/-- `sema_up` as a step. -/
def upStep (s : Sema τ) (before : τ → Bool) : Option (Sema τ) := do
  let t ← s.semaUp before
  return { t with ups := t.ups + 1 }

end Sema

/-- What the running task does: it calls `sema_down`, goes on in it where `task_block`
returns, calls `sema_up`, or makes room for another task outside of both. -/
inductive SemaCall (τ : Type)
  | down
  | resume
  | up (before : τ → Bool)
  | yield (before : τ → Bool)

/-- One step of the running task. -/
def semaStep {τ : Type} [DecidableEq τ] [Fintype τ] (s : Sema τ) (c : SemaCall τ) :
    Option (Sema τ) := do
  let p ← s.running
  match c, s.inDown p with
  | .down, false => s.downStep p
  | .resume, true => s.downStep p
  | .up before, false => s.upStep before
  | .yield before, false => do (← s.taskListInsert before p).switchNext
  | _, _ => none

/-- `init_semaphore` with `n` units, before any of the tasks has used it. -/
structure SemaInit {τ : Type} (n : Nat) (s : Sema τ) : Prop where
  value : s.value = n
  lists : ∃ ready, s.links.Holds (fun _ => True)
      (fun | .waiters => [] | .taskList => ready) ∧
    ∀ p, s.running = some p → p ∉ ready
  status : ∀ p, s.status p ≠ .blocked
  inDown : ∀ p, s.inDown p = false
  ups : s.ups = 0
  downs : s.downs = 0

def semaSystem (τ : Type) [DecidableEq τ] [Fintype τ] (n : Nat) : System (Sema τ) (SemaCall τ) :=
  ⟨SemaInit n, fun s c t => semaStep s c = some t⟩

/-! ## The invariant -/

namespace Sema

variable {τ : Type} [DecidableEq τ] [Fintype τ]

/-- The tasks that `sema_up` has woken and that have not tested again. -/
def woken (s : Sema τ) : Finset τ :=
  Finset.univ.filter fun p => s.inDown p = true ∧ s.status p ≠ .blocked

/-- The waiters are the blocked tasks, each in a call of `sema_down`; the running task is in
no list; the units are accounted for; and while anybody waits, no more units are free than
there are tasks on their way to them. -/
structure Inv (n : Nat) (s : Sema τ) (contents : SemaList → List τ) : Prop where
  lists : s.links.Holds (fun _ => True) contents
  waiters : ∀ p, p ∈ contents .waiters ↔ s.status p = .blocked
  inDown : ∀ p ∈ contents .waiters, s.inDown p = true
  running : ∀ p, s.running = some p → s.status p ≠ .blocked ∧ p ∉ contents .taskList
  downs : s.downs ≤ n + s.ups
  value : s.value = (n + s.ups - s.downs) % wordSize
  free : contents .waiters ≠ [] → s.value ≤ s.woken.card

variable {s : Sema τ} {n : Nat} {contents : SemaList → List τ}

omit [DecidableEq τ] in
theorem Inv.length_lt (h : s.Inv n contents) (l : SemaList) :
    (contents l).length < Fintype.card τ + 1 :=
  Nat.lt_succ_of_le (h.lists.nodup l trivial).length_le_card

omit [DecidableEq τ] in
/-- The running task is in no list. -/
theorem Inv.loose (h : s.Inv n contents) {p : τ} (hp : s.running = some p) :
    Heap.Loose (fun _ => True) contents p := by
  obtain ⟨hstatus, hready⟩ := h.running p hp
  intro l _ hmem
  cases l with
  | waiters => exact hstatus ((h.waiters p).mp hmem)
  | taskList => exact hready hmem

/-- `task_list_insert` of a task that is in no list. -/
theorem taskListInsert_eq (hlists : s.links.Holds (fun _ => True) contents) {p : τ}
    (hloose : Heap.Loose (fun _ => True) contents p) (before : τ → Bool) :
    ∃ pre post k, contents .taskList = pre ++ post ∧
      Heap.Holds k (fun _ => True) (Function.update contents .taskList (pre ++ p :: post)) ∧
      s.taskListInsert before p =
        some { s with links := k, status := Function.update s.status p .ready } := by
  have hlen : (contents .taskList).length < Fintype.card τ + 1 :=
    Nat.lt_succ_of_le (hlists.nodup .taskList trivial).length_le_card
  have hfind := hlists.listFind (t := p) (l := .taskList) trivial hlen
  rw [decide_eq_false (hloose .taskList trivial)] at hfind
  obtain ⟨pre, post, hsplit, hplace⟩ :=
    hlists.placeFrom (l := .taskList) trivial before [] _ rfl hlen
  obtain ⟨k, hin, hk⟩ := hlists.listIn (l := .taskList) trivial pre post hsplit hloose
  refine ⟨pre, post, k, hsplit, hk, ?_⟩
  have hhead := hlists.next_head (l := .taskList) trivial
  simp only [taskListInsert, hfind, hhead, hplace, hin, Option.bind_eq_bind, Option.bind_some]
  rfl

omit [Fintype τ] in
/-- A change of status between two that are not `TASK_BLOCKED`. -/
theorem update_status_iff {p : τ} {st : TaskStatus} (hp : s.status p ≠ .blocked)
    (hst : st ≠ .blocked) (q : τ) :
    Function.update s.status p st q = .blocked ↔ s.status q = .blocked := by
  by_cases hq : q = p
  · rw [hq, Function.update_self]
    exact iff_of_false hst hp
  · rw [Function.update_of_ne hq]

omit [DecidableEq τ] in
theorem woken_congr {t : Sema τ} (hinDown : t.inDown = s.inDown)
    (hstatus : ∀ q, t.status q = .blocked ↔ s.status q = .blocked) : t.woken = s.woken := by
  unfold woken
  rw [hinDown]
  apply Finset.filter_congr
  intro q _
  rw [Ne, hstatus]

/-- The switch to the next task, when the last one is in its list or blocked. -/
theorem Inv.switchNext (h : Inv n { s with running := none } contents) :
    ∃ t contents, s.switchNext = some t ∧ t.Inv n contents := by
  have hlists := h.lists
  unfold Sema.switchNext
  by_cases hempty : s.links.listEmpty .taskList = true
  · rw [if_pos hempty]
    exact ⟨_, contents, rfl, h⟩
  · rw [if_neg hempty]
    have hne : contents .taskList ≠ [] :=
      fun hnil => hempty ((hlists.listEmpty_iff (l := .taskList) trivial).mpr hnil)
    obtain ⟨next, rest, hcons⟩ := List.exists_cons_of_ne_nil hne
    obtain ⟨k, hpop, hk⟩ := hlists.listPop (l := .taskList) trivial hcons
    have hmem : next ∈ contents .taskList := hcons ▸ List.mem_cons_self
    have hstatus : s.status next ≠ .blocked := fun hblocked => by
      have hwaits : next ∈ contents .waiters := (h.waiters next).mpr hblocked
      cases hlists.disjoint .waiters .taskList trivial trivial next hwaits hmem
    have hiff (q : τ) := update_status_iff hstatus (by decide : TaskStatus.running ≠ .blocked) q
    have hwaiters : Function.update contents .taskList rest .waiters = contents .waiters :=
      Function.update_of_ne (by decide) ..
    rw [hpop]
    refine ⟨_, Function.update contents .taskList rest, rfl, hk, fun q => ?_, fun q hq => ?_,
      fun q hq => ?_, h.downs, h.value, fun hwait => ?_⟩
    · rw [hwaiters, h.waiters q]
      exact (hiff q).symm
    · rw [hwaiters] at hq
      exact h.inDown q hq
    · obtain rfl : next = q := Option.some.inj hq
      refine ⟨fun hblocked => hstatus ((hiff next).mp hblocked), ?_⟩
      rw [Function.update_self]
      have hnodup := hlists.nodup .taskList trivial
      rw [hcons] at hnodup
      exact (List.nodup_cons.mp hnodup).1
    · rw [hwaiters] at hwait
      refine (h.free hwait).trans_eq ?_
      exact congrArg Finset.card (woken_congr (t := { s with running := none }) rfl fun q =>
        (hiff q).symm)

omit [Fintype τ] in
/-- Where the task is noted before or after it goes to sleep. -/
theorem taskBlock_noteDown (s : Sema τ) (p : τ) :
    ((s.taskBlock p).bind fun t => some (t.noteDown p false)) =
      taskBlock { s with inDown := Function.update s.inDown p true } p := by
  simp only [taskBlock, Sema.switchNext]
  cases s.links.listEmpty .taskList with
  | true => rfl
  | false =>
      cases s.links.listPop .taskList with
      | none => rfl
      | some popped =>
          obtain ⟨node, k⟩ := popped
          cases node <;> rfl

/-- A test of `sema_down` finds a unit, or the task goes to sleep; the `ASSERT` holds. -/
theorem Inv.downStep (h : s.Inv n contents) {p : τ} (hp : s.running = some p) :
    ∃ t contents, s.downStep p = some t ∧ t.Inv n contents := by
  have hlists := h.lists
  have hloose := h.loose hp
  obtain ⟨hstatus, hready⟩ := h.running p hp
  unfold Sema.downStep Sema.semaDown
  by_cases hzero : s.value = 0
  · have hfind := hlists.listFind (t := p) (l := .waiters) trivial (h.length_lt .waiters)
    rw [decide_eq_false (hloose .waiters trivial)] at hfind
    obtain ⟨k, happend, hk⟩ := hlists.listAppend (l := .waiters) trivial hloose
    have htasks : Function.update contents .waiters (contents .waiters ++ [p]) .taskList =
        contents .taskList := Function.update_of_ne (by decide) ..
    rw [if_pos hzero, hfind]
    simp only [Option.bind_eq_bind, Option.bind_some, Bool.false_eq_true, if_false, happend,
      Option.pure_def, Option.bind_assoc, taskBlock_noteDown]
    refine Inv.switchNext
      ⟨hk, fun q => ?_, fun q hq => ?_, nofun, h.downs, h.value, fun _ => ?_⟩
    · rw [Function.update_self, List.mem_append, List.mem_singleton, h.waiters q]
      show _ ↔ Function.update s.status p .blocked q = .blocked
      by_cases hq : q = p
      · simp [hq]
      · simp [hq]
    · show Function.update s.inDown p true q = true
      by_cases hqp : q = p
      · rw [hqp, Function.update_self]
      · rw [Function.update_of_ne hqp]
        rw [Function.update_self, List.mem_append, List.mem_singleton] at hq
        exact h.inDown q (hq.resolve_right hqp)
    · show s.value ≤ _
      rw [hzero]
      exact Nat.zero_le _
  · have hpos : 0 < s.value := Nat.pos_of_ne_zero hzero
    have hvalue := h.value
    have hdowns := h.downs
    have hlt : s.value < wordSize := hvalue ▸ Nat.mod_lt _ (by decide)
    have hsub : sub64 s.value 1 = s.value - 1 := sub64_of_le hpos hlt
    rw [if_neg hzero]
    refine ⟨{ s with
      value := sub64 s.value 1
      inDown := Function.update s.inDown p false
      downs := s.downs + 1 }, contents, rfl, hlists, h.waiters, fun q hq => ?_, h.running, ?_, ?_,
      fun hwait => ?_⟩
    · show Function.update s.inDown p false q = true
      have hqp : q ≠ p := by
        rintro rfl
        exact hstatus ((h.waiters q).mp hq)
      rw [Function.update_of_ne hqp]
      exact h.inDown q hq
    · show s.downs + 1 ≤ n + s.ups
      unfold wordSize at hvalue
      omega
    · show sub64 s.value 1 = (n + s.ups - (s.downs + 1)) % wordSize
      rw [hsub, hvalue]
      unfold wordSize at hvalue ⊢
      omega
    · have herase : s.woken.erase p ⊆
          woken { s with
            value := sub64 s.value 1, inDown := Function.update s.inDown p false,
            downs := s.downs + 1 } := by
        intro q hq
        obtain ⟨hne, hq⟩ := Finset.mem_erase.mp hq
        simpa [woken, Function.update_of_ne hne] using hq
      show sub64 s.value 1 ≤ _
      calc
        sub64 s.value 1 = s.value - 1 := hsub
        _ ≤ s.woken.card - 1 := Nat.sub_le_sub_right (h.free hwait) 1
        _ ≤ (s.woken.erase p).card := Finset.pred_card_le_card_erase
        _ ≤ _ := Finset.card_le_card herase

/-- The first waiter, if there is one, is ready again; it is one task more that has not
tested yet. -/
theorem Inv.wakeFirst (h : s.Inv n contents) (before : τ → Bool) :
    ∃ t contents', s.wakeFirst before = some t ∧ t.Inv n contents' ∧
      t.value = s.value ∧ t.ups = s.ups ∧ t.downs = s.downs ∧
        (contents' .waiters ≠ [] → s.value + 1 ≤ t.woken.card) := by
  have hlists := h.lists
  unfold Sema.wakeFirst
  by_cases hempty : s.links.listEmpty .waiters = true
  · rw [if_pos hempty]
    have hnil := (hlists.listEmpty_iff (l := .waiters) trivial).mp hempty
    exact ⟨s, contents, rfl, h, rfl, rfl, rfl, fun hne => absurd hnil hne⟩
  · rw [if_neg hempty]
    have hne : contents .waiters ≠ [] :=
      fun hnil => hempty ((hlists.listEmpty_iff (l := .waiters) trivial).mpr hnil)
    obtain ⟨q, rest, hcons⟩ := List.exists_cons_of_ne_nil hne
    obtain ⟨k, hpop, hk⟩ := hlists.listPop (l := .waiters) trivial hcons
    have hloose := hlists.loose_of_removed (l := .waiters) trivial [] rest hcons
    obtain ⟨pre, post, k', hsplit, hk', hinsert⟩ :=
      taskListInsert_eq (s := { s with links := k }) hk hloose before
    have hnodup := hlists.nodup .waiters trivial
    rw [hcons] at hnodup
    have hblocked : s.status q = .blocked := (h.waiters q).mp (hcons ▸ List.mem_cons_self)
    have hdown : s.inDown q = true := h.inDown q (hcons ▸ List.mem_cons_self)
    have hrest : Function.update (Function.update contents .waiters rest) .taskList
        (pre ++ q :: post) .waiters = rest := by
      rw [Function.update_of_ne (by decide), Function.update_self]
    have hwoken : woken { s with
        links := k', status := Function.update s.status q .ready } = insert q s.woken := by
      ext x
      by_cases hx : x = q
      · simp [woken, hx, hdown]
      · simp [woken, hx]
    have hfresh : q ∉ s.woken := by simp [woken, hblocked]
    rw [hpop]
    have hcard : s.value + 1 ≤ (woken { s with
        links := k', status := Function.update s.status q .ready }).card := by
      rw [hwoken, Finset.card_insert_of_notMem hfresh]
      exact Nat.succ_le_succ (h.free hne)
    refine ⟨_, _, hinsert, ⟨hk', fun x => ?_, fun x hx => ?_, fun x hx => ?_, h.downs, h.value,
      fun _ => (Nat.le_succ _).trans hcard⟩, rfl, rfl, rfl, fun _ => hcard⟩
    · rw [hrest]
      show _ ↔ Function.update s.status q .ready x = .blocked
      by_cases hx : x = q
      · rw [hx, Function.update_self]
        exact iff_of_false (List.nodup_cons.mp hnodup).1 (by decide)
      · rw [Function.update_of_ne hx, ← h.waiters x, hcons]
        simp [hx]
    · rw [hrest] at hx
      exact h.inDown x (hcons ▸ List.mem_cons_of_mem _ hx)
    · obtain ⟨hstatus, hready⟩ := h.running x hx
      have hxq : x ≠ q := by
        rintro rfl
        exact hstatus hblocked
      refine ⟨?_, ?_⟩
      · show Function.update s.status q .ready x ≠ .blocked
        rwa [Function.update_of_ne hxq]
      · rw [Function.update_self]
        rw [Function.update_of_ne (by decide)] at hsplit
        rw [hsplit] at hready
        simp only [List.mem_append, List.mem_cons, not_or] at hready ⊢
        exact ⟨hready.1, hxq, hready.2⟩

theorem Inv.upStep (h : s.Inv n contents) (before : τ → Bool) :
    ∃ t contents, s.upStep before = some t ∧ t.Inv n contents := by
  obtain ⟨t, contents', hwake, ht, hvalue, hups, hdowns, hfree⟩ := h.wakeFirst before
  have hval := ht.value
  have hle := ht.downs
  refine ⟨{ t with value := add64 t.value 1, ups := t.ups + 1 }, contents', ?_, ht.lists,
    ht.waiters, ht.inDown, ht.running, ?_, ?_, fun hwait => ?_⟩
  · rw [Sema.upStep, Sema.semaUp, hwake]
    rfl
  · show t.downs ≤ n + (t.ups + 1)
    omega
  · show add64 t.value 1 = (n + (t.ups + 1) - t.downs) % wordSize
    unfold add64
    rw [hval]
    unfold wordSize
    omega
  · show add64 t.value 1 ≤ t.woken.card
    rw [hvalue]
    exact (Nat.mod_le _ _).trans (hfree hwait)

theorem Inv.yield (h : s.Inv n contents) {p : τ} (hp : s.running = some p) (before : τ → Bool) :
    ∃ t contents, (do (← s.taskListInsert before p).switchNext : Option (Sema τ)) = some t ∧
      t.Inv n contents := by
  obtain ⟨pre, post, k, hsplit, hk, hinsert⟩ := taskListInsert_eq h.lists (h.loose hp) before
  obtain ⟨hstatus, -⟩ := h.running p hp
  have hiff (q : τ) := update_status_iff hstatus (by decide : TaskStatus.ready ≠ .blocked) q
  have hwaiters : Function.update contents .taskList (pre ++ p :: post) .waiters =
      contents .waiters := Function.update_of_ne (by decide) ..
  simp only [hinsert, Option.bind_eq_bind, Option.bind_some]
  refine Inv.switchNext
    ⟨hk, fun q => ?_, fun q hq => ?_, nofun, h.downs, h.value, fun hwait => ?_⟩
  · rw [hwaiters, h.waiters q]
    exact (hiff q).symm
  · rw [hwaiters] at hq
    exact h.inDown q hq
  · rw [hwaiters] at hwait
    refine (h.free hwait).trans_eq ?_
    exact congrArg Finset.card (woken_congr (t := s) rfl fun q => (hiff q).symm)

theorem Inv.step (h : s.Inv n contents) {c : SemaCall τ} {t : Sema τ}
    (hstep : semaStep s c = some t) : ∃ contents, t.Inv n contents := by
  have hdone {o : Option (Sema τ)} (ho : ∃ t contents, o = some t ∧ t.Inv n contents)
      (hsome : o = some t) : ∃ contents, t.Inv n contents := by
    obtain ⟨t', contents, ht', hinv⟩ := ho
    rw [ht', Option.some.injEq] at hsome
    exact ⟨contents, hsome ▸ hinv⟩
  cases hp : s.running with
  | none => simp [semaStep, hp] at hstep
  | some p =>
      simp only [semaStep, hp, Option.bind_eq_bind, Option.bind_some] at hstep
      split at hstep
      · exact hdone (h.downStep hp) hstep
      · exact hdone (h.downStep hp) hstep
      · next before _ => exact hdone (h.upStep before) hstep
      · next before _ => exact hdone (h.yield hp before) hstep
      · cases hstep

omit [DecidableEq τ] in
theorem exists_inv_of_init (hn : n < 0x100000000) (h : SemaInit n s) :
    ∃ contents, s.Inv n contents := by
  obtain ⟨ready, hlists, hready⟩ := h.lists
  refine ⟨_, hlists, fun p => ?_, nofun, fun p hp => ⟨h.status p, hready p hp⟩, ?_, ?_,
    fun hne => absurd rfl hne⟩
  · exact iff_of_false (List.not_mem_nil) (h.status p)
  · rw [h.downs]
    exact Nat.zero_le _
  · rw [h.value, h.ups, h.downs, Nat.add_zero, Nat.sub_zero, Nat.mod_eq_of_lt]
    unfold wordSize
    omega

/-- What holds of the semaphore whatever its users have done: no unit is made up or taken
twice, a waiter is queued once and sleeps in `sema_down`, and nobody waits for a unit that
no woken task is on its way to. `value` is a 64-bit word, so it counts modulo its size. -/
structure Sound (n : Nat) (s : Sema τ) (contents : SemaList → List τ) : Prop where
  lists : s.links.Holds (fun _ => True) contents
  downs : s.downs ≤ n + s.ups
  value : s.value = (n + s.ups - s.downs) % wordSize
  exact : n + s.ups < wordSize → s.value + s.downs = n + s.ups
  once : (contents .waiters).Nodup
  waiters : ∀ p ∈ contents .waiters, s.inDown p = true ∧ s.status p = .blocked ∧
    s.running ≠ some p ∧ p ∉ contents .taskList
  free : contents .waiters ≠ [] → s.value ≤ s.woken.card
  assert : ∀ p, s.running = some p → (s.semaDown p).isSome ∧ ∀ before, (s.semaUp before).isSome

theorem Inv.sound (h : s.Inv n contents) : s.Sound n contents := by
  refine ⟨h.lists, h.downs, h.value, fun hlt => ?_, h.lists.nodup .waiters trivial,
    fun p hp => ?_, h.free, fun p hp => ⟨?_, fun before => ?_⟩⟩
  · have hvalue := h.value
    have hdowns := h.downs
    unfold wordSize at hvalue hlt
    omega
  · have hstatus := (h.waiters p).mp hp
    refine ⟨h.inDown p hp, hstatus, fun hrun => (h.running p hrun).1 hstatus, fun hready => ?_⟩
    cases h.lists.disjoint .waiters .taskList trivial trivial p hp hready
  · obtain ⟨t, -, hsome, -⟩ := h.downStep hp
    obtain ⟨r, hr, -⟩ := Option.bind_eq_some_iff.mp hsome
    exact Option.isSome_of_eq_some hr
  · obtain ⟨t, -, hsome, -⟩ := h.upStep before
    obtain ⟨r, hr, -⟩ := Option.bind_eq_some_iff.mp hsome
    exact Option.isSome_of_eq_some hr

end Sema

theorem semaSystem_sound {τ : Type} [DecidableEq τ] [Fintype τ] {n : Nat} (hn : n < 0x100000000)
    {s : Sema τ} (hreach : (semaSystem τ n).Reachable s) : ∃ contents, s.Sound n contents := by
  have hinv : ∃ contents, s.Inv n contents := by
    apply hreach.invariant (fun s hinit => Sema.exists_inv_of_init hn hinit)
    rintro s c t ⟨contents, h⟩ - hstep
    exact h.step hstep
  obtain ⟨contents, h⟩ := hinv
  exact ⟨contents, h.sound⟩

/-! ## Two tasks -/

namespace Sema

/-- Task `true` is ready, and nobody waits. -/
def twoLinks : Heap SemaList Bool where
  next
    | .head .waiters => some (.tail .waiters)
    | .head .taskList => some (.elem true)
    | .elem true => some (.tail .taskList)
    | _ => none
  prev
    | .tail .waiters => some (.head .waiters)
    | .elem true => some (.head .taskList)
    | .tail .taskList => some (.elem true)
    | _ => none

/-- Task `false` runs, and no unit is free. -/
def twoTasks : Sema Bool where
  value := 0
  links := twoLinks
  status := fun p => if p then .ready else .running
  running := some false
  inDown := fun _ => false
  ups := 0
  downs := 0

theorem twoTasks_init : SemaInit 0 twoTasks where
  value := rfl
  lists := by
    refine ⟨[true], ⟨fun l _ => ?_, fun l _ => ?_, fun l l' _ _ t ht ht' => ?_, ?_⟩, ?_⟩
    · cases l <;> simp [Links.Linked, Heap.nodes, twoTasks, twoLinks]
    · cases l <;> decide
    · cases l <;> cases l' <;> simp_all
    · exact fun l hl => absurd trivial hl
    · rintro p ⟨⟩
      decide
  status := by
    show ∀ p : Bool, (if p = true then TaskStatus.ready else .running) ≠ .blocked
    decide
  inDown _ := rfl
  ups := rfl
  downs := rfl

/-- The first of two tasks goes to sleep. The other one puts a unit in, which wakes it, and makes
room; it tests again and takes the unit. -/
theorem exists_waiter_sound : ∃ (s t : Sema Bool) (contents contents' : SemaList → List Bool),
    (s.status false = .blocked ∧ s.running = some true ∧ s.Sound 0 contents) ∧
    (t.running = some false ∧ t.inDown false = false ∧ t.value = 0 ∧ t.ups = 1 ∧ t.downs = 1) ∧
    t.Sound 0 contents' := by
  have hinit : (semaSystem Bool 0).Reachable twoTasks := .init twoTasks_init
  have hnext (s : Sema Bool) (c : SemaCall Bool) (t : Sema Bool) (h : semaStep s c = some t) :
      (semaSystem Bool 0).step s c t := h
  have hsleep : ((System.runWhen (fun _ _ => true) semaStep twoTasks [.down]).map fun s =>
      (s.status false, s.running)) = some (.blocked, some true) := by
    decide +kernel
  have hwake : ((System.runWhen (fun _ _ => true) semaStep twoTasks
      [.down, .up fun _ => false, .yield fun _ => false, .resume]).map fun t =>
        (t.running, t.inDown false, t.value, t.ups, t.downs)) =
      some (some false, false, 0, 1, 1) := by
    decide +kernel
  obtain ⟨s, hs, hasleep⟩ := hinit.exists_run hnext hsleep
  obtain ⟨t, ht, hawake⟩ := hinit.exists_run hnext hwake
  simp only [Prod.mk.injEq] at hasleep hawake
  obtain ⟨contents, hsound⟩ := semaSystem_sound (by decide) hs
  obtain ⟨contents', hsound'⟩ := semaSystem_sound (by decide) ht
  exact ⟨s, t, contents, contents', ⟨hasleep.1, hasleep.2, hsound⟩, hawake, hsound'⟩

end Sema

end ClayFigure
