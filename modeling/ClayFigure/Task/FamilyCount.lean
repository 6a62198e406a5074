/-
# The counter of children

`childs` is kept by `task_start` and `task_release_resource` only. The counter of a task stays
right as long as the task makes no process by `proc_execute` and gives no child away, and is
given none; the first step that breaks this rule makes it wrong.
-/

import ClayFigure.Task.FamilyTree

namespace ClayFigure

open ClayFigure.Math

namespace Family

/-- The tasks, dead or alive, that `p` still has to reap, itself excluded. -/
def children (s : Family) (p : Slot) : Finset Slot :=
  Finset.univ.filter fun i => s.Exists i ∧ i ≠ p ∧ (s.tasks i).ppid = p

@[simp]
theorem mem_children {s : Family} {p i : Slot} :
    i ∈ s.children p ↔ s.Exists i ∧ i ≠ p ∧ (s.tasks i).ppid = p := by
  simp [children]

theorem card_children_le (s : Family) (p : Slot) : (s.children p).card ≤ numTasks :=
  (Finset.card_le_univ _).trans (by rw [Fintype.card_fin])

/-- The counter of `p` is the number of its children. -/
def CountedAt (s : Family) (p : Slot) : Prop :=
  s.Exists p → (s.tasks p).childs = (s.children p).card

/-- The step counts the children of `p` that it makes or moves: it is no `proc_execute` by `p`,
and a task that exits hands no child of `p` on, and none to `p`. -/
def BalancedAt (p : Slot) (s : Family) : FamilyCall → Prop
  | .procExecute cur _ _ => cur ≠ p
  | .adopt cur => ∀ i, s.Exists i → i ≠ p → (s.tasks i).ppid = cur →
      cur ≠ p ∧ s.mainTask (s.tasks i).cpuId ≠ p
  | _ => True

instance (p : Slot) (s : Family) : (c : FamilyCall) → Decidable (s.BalancedAt p c)
  | .taskStart _ _ _ => isTrue trivial
  | .procExecute _ _ _ => inferInstanceAs (Decidable (_ ≠ _))
  | .adopt cur => decidable_of_iff ((List.finRange numTasks).all fun i =>
      decide (s.Exists i → i ≠ p → (s.tasks i).ppid = cur →
        cur ≠ p ∧ s.mainTask (s.tasks i).cpuId ≠ p))
      (by simp only [List.all_eq_true, List.mem_finRange, true_imp_iff, decide_eq_true_eq,
        BalancedAt])
  | .notify _ => isTrue trivial
  | .reap _ => isTrue trivial

section

variable {s t : Family} {p : Slot}

/-- The counter does not change when neither the tasks nor their parents do. -/
theorem CountedAt.congr (hs : s.CountedAt p) (hexists : ∀ i, t.Exists i ↔ s.Exists i)
    (htasks : ∀ i, s.Exists i → (t.tasks i).ppid = (s.tasks i).ppid ∧
      (t.tasks i).childs = (s.tasks i).childs) : t.CountedAt p := by
  intro hp
  have hchildren : t.children p = s.children p := by
    ext i
    rw [mem_children, mem_children, hexists]
    refine and_congr_right fun hi => ?_
    rw [(htasks i hi).1]
  rw [hexists] at hp
  rw [hchildren, (htasks p hp).2, hs hp]

/-- The children after a creation. -/
theorem children_created {cur i : Slot} (hcur : s.Exists cur) (hi : ¬ s.Exists i) (childs : Nat)
    (hp : p ≠ i) :
    (s.created cur i childs).children p =
      if p = cur then insert i (s.children p) else s.children p := by
  have hne : cur ≠ i := by
    rintro rfl
    exact hi hcur
  ext j
  rw [mem_children, exists_created]
  by_cases hj : j = i
  · subst hj
    by_cases hpc : p = cur
    · subst hpc
      simp [created, Ne.symm hp]
    · have hpc' : (cur : Nat) ≠ p := fun heq => hpc (Fin.ext heq.symm)
      simp [created, hpc, hpc', hi]
  · have hppid : ((s.created cur i childs).tasks j).ppid = (s.tasks j).ppid := by
      by_cases hjc : j = cur <;> simp [created, hj, hjc, hne]
    rw [hppid]
    by_cases hpc : p = cur <;> simp [hj, hpc]

theorem children_created_self {used : Slot → Prop} {contents : Slot → List Slot}
    (hs : FamilyInv s used contents) {cur i : Slot} (hcur : s.Exists cur) (hi : ¬ s.Exists i)
    (childs : Nat) : (s.created cur i childs).children i = ∅ := by
  have hne : cur ≠ i := by
    rintro rfl
    exact hi hcur
  refine Finset.eq_empty_of_forall_notMem fun j hj => ?_
  rw [mem_children, exists_created] at hj
  obtain ⟨hj | hj, hji, hppid⟩ := hj
  · exact hji hj
  · have hold : ((s.created cur i childs).tasks j).ppid = (s.tasks j).ppid := by
      by_cases hjc : j = cur <;> simp [created, hji, hjc, hne]
    obtain ⟨l, hl, heq⟩ := hs.parent j hj
    rw [hold, heq] at hppid
    exact hi (Fin.ext hppid ▸ hl)

/-- A creation keeps the counter right when `p` counts the children it makes. -/
theorem CountedAt.created {used : Slot → Prop} {contents : Slot → List Slot}
    (hs : FamilyInv s used contents) (hcount : s.CountedAt p) {cur i : Slot}
    (hcur : s.Exists cur) (hi : ¬ s.Exists i) {childs : Nat}
    (hchilds : cur = p → childs = add64 (s.tasks p).childs 1) :
    (s.created cur i childs).CountedAt p := by
  have hne : cur ≠ i := by
    rintro rfl
    exact hi hcur
  intro hp
  by_cases hpi : p = i
  · subst hpi
    rw [children_created_self hs hcur hi]
    simp [Family.created]
  · have hpe : s.Exists p := ((exists_created _ p).mp hp).resolve_left hpi
    rw [children_created hcur hi _ hpi]
    by_cases hpc : p = cur
    · subst hpc
      have hnew : i ∉ s.children p := fun h => hi (mem_children.mp h).1
      have hle := s.card_children_le p
      have hmade : ((s.created p i childs).tasks p).childs = add64 (s.tasks p).childs 1 := by
        simp [Family.created, hne, hchilds rfl]
      rw [hmade, if_pos rfl, Finset.card_insert_of_notMem hnew, hcount hcur]
      exact add64_of_lt (by unfold wordSize; unfold numTasks at hle; omega)
    · rw [if_neg hpc, ← hcount hpe]
      simp [Family.created, hpi, hpc]

/-- A child that is counted off when it is reaped. -/
theorem CountedAt.reap {used : Slot → Prop} {contents : Slot → List Slot}
    (hs : FamilyInv s used contents) (hcount : s.CountedAt p) {cur child : Slot}
    {rest : List Slot} (hcur : s.Exists cur) (hrun : s.stage cur = .running)
    (hcons : contents cur = child :: rest) (k : Heap Slot Slot) :
    (s.reaped cur child k).CountedAt p ∧
      (cur = p → ((s.reaped cur child k).tasks p).childs + 1 = (s.tasks p).childs) := by
  obtain ⟨hchild, -, hdied, hppid⟩ :=
    (hs.member cur (hs.used_of_exists cur hcur) child).mp (by simp [hcons])
  have hne : cur ≠ child := by
    rintro rfl
    rw [hrun] at hdied
    cases hdied
  have hexists (i : Slot) : (s.reaped cur child k).Exists i ↔ s.Exists i ∧ i ≠ child := by
    by_cases hi : i = child
    · simp [Exists, reaped, hi]
    · by_cases hic : i = cur <;> simp [Exists, reaped, hi, hic, hne]
  have hchildren : (s.reaped cur child k).children p = (s.children p).erase child := by
    ext i
    rw [Finset.mem_erase, mem_children, mem_children, hexists]
    by_cases hi : i = child
    · simp [hi]
    · have hkeep : ((s.reaped cur child k).tasks i).ppid = (s.tasks i).ppid := by
        by_cases hic : i = cur <;> simp [reaped, hi, hic, hne]
      rw [hkeep]
      simp [hi]
  by_cases hpc : cur = p
  · subst hpc
    have hmem : child ∈ s.children cur := mem_children.mpr ⟨hchild, Ne.symm hne, hppid⟩
    have hpos : 0 < (s.children cur).card := Finset.card_pos.mpr ⟨child, hmem⟩
    have hle := s.card_children_le cur
    have hchilds : ((s.reaped cur child k).tasks cur).childs = (s.children cur).card - 1 := by
      have hdec : ((s.reaped cur child k).tasks cur).childs = sub64 (s.tasks cur).childs 1 := by
        simp [reaped, hne]
      rw [hdec, hcount hcur]
      exact sub64_of_le hpos (by unfold wordSize; unfold numTasks at hle; omega)
    constructor
    · intro _
      rw [hchildren, hchilds, Finset.card_erase_of_mem hmem]
    · intro _
      rw [hchilds, hcount hcur]
      omega
  · refine ⟨fun hp => ?_, fun heq => absurd heq hpc⟩
    rw [hexists] at hp
    have hother : child ∉ s.children p := by
      rw [mem_children, hppid]
      rintro ⟨-, -, heq⟩
      exact hpc (Fin.ext heq)
    have hkeep : ((s.reaped cur child k).tasks p).childs = (s.tasks p).childs := by
      simp [reaped, hp.2, Ne.symm hpc]
    rw [hchildren, Finset.erase_eq_of_notMem hother, hkeep, hcount hp.1]

/-! ## Children that are given away -/

theorem exists_adopted {cur : Slot} (k : Heap Slot Slot) (i : Slot) :
    (s.adopted cur k).Exists i ↔ s.Exists i := by
  simp [Exists, adopted]

theorem childs_adopted (cur : Slot) (k : Heap Slot Slot) (i : Slot) :
    ((s.adopted cur k).tasks i).childs = (s.tasks i).childs := by
  simp only [adopted, adoptTask]
  split <;> rfl

/-- The parents after an adoption. -/
theorem ppid_adopted {used : Slot → Prop} {contents : Slot → List Slot}
    (hs : FamilyInv s used contents) {cur i : Slot} (k : Heap Slot Slot) (hi : s.Exists i) :
    ((s.adopted cur k).tasks i).ppid =
      if (s.tasks i).ppid = cur then (s.mainTask (s.tasks i).cpuId : Nat)
      else (s.tasks i).ppid := by
  by_cases hppid : (s.tasks i).ppid = cur
  · simp [adopted, adoptTask, hi, hppid, hs.pid _ (hs.main i hi).1]
  · simp [adopted, adoptTask, hppid]

/-- When no child of `p` and none for `p` is handed on, its children stay. -/
theorem CountedAt.adopt {used : Slot → Prop} {contents : Slot → List Slot}
    (hs : FamilyInv s used contents) (hcount : s.CountedAt p) {cur : Slot}
    (hbalanced : s.BalancedAt p (.adopt cur)) (k : Heap Slot Slot) :
    (s.adopted cur k).CountedAt p := by
  have hchildren : (s.adopted cur k).children p = s.children p := by
    ext i
    rw [mem_children, mem_children, exists_adopted]
    refine and_congr_right fun hi => and_congr_right fun hip => ?_
    rw [ppid_adopted hs k hi]
    by_cases hppid : (s.tasks i).ppid = cur
    · obtain ⟨hcur, hmain⟩ := hbalanced i hi hip hppid
      rw [if_pos hppid, hppid]
      exact iff_of_false (fun heq => hmain (Fin.ext heq)) fun heq => hcur (Fin.ext heq)
    · rw [if_neg hppid]
  intro hp
  rw [hchildren, childs_adopted, hcount ((exists_adopted k p).mp hp)]

/-- A task that gives a child away still counts it. -/
theorem not_countedAt_giver {used : Slot → Prop} {contents : Slot → List Slot}
    (hs : FamilyInv s used contents) (hcount : s.CountedAt p) (hp : s.Exists p)
    (hmain : s.mainTask (s.tasks p).cpuId ≠ p) (k : Heap Slot Slot) {i : Slot}
    (hi : i ∈ s.children p) : ¬ (s.adopted p k).CountedAt p := by
  have hempty : (s.adopted p k).children p = ∅ := by
    refine Finset.eq_empty_of_forall_notMem fun j hj => ?_
    rw [mem_children, exists_adopted] at hj
    obtain ⟨hje, -, hjp⟩ := hj
    rw [ppid_adopted hs k hje] at hjp
    split at hjp
    · exact hs.mainTask_ne hje hmain (Fin.ext hjp)
    · next hother => exact hother hjp
  have hpos : 0 < (s.children p).card := Finset.card_pos.mpr ⟨i, hi⟩
  intro hcounted
  have hc := hcounted ((exists_adopted k p).mpr hp)
  rw [childs_adopted, hempty, hcount hp, Finset.card_empty] at hc
  exact Nat.ne_of_gt hpos hc

/-- A task that is given a child does not count it. -/
theorem not_countedAt_taker {used : Slot → Prop} {contents : Slot → List Slot}
    (hs : FamilyInv s used contents) (hcount : s.CountedAt p) {cur : Slot} (hcur : cur ≠ p)
    (k : Heap Slot Slot) {i : Slot} (hi : s.Exists i) (hip : i ≠ p)
    (hppid : (s.tasks i).ppid = cur) (hmain : s.mainTask (s.tasks i).cpuId = p) :
    ¬ (s.adopted cur k).CountedAt p := by
  have hp : s.Exists p := hmain ▸ (hs.main i hi).1
  have hold : i ∉ s.children p := by
    rw [mem_children, hppid]
    rintro ⟨-, -, heq⟩
    exact hcur (Fin.ext heq)
  have hsub : insert i (s.children p) ⊆ (s.adopted cur k).children p := by
    intro j hj
    rw [mem_children, exists_adopted]
    rcases Finset.mem_insert.mp hj with rfl | hj
    · exact ⟨hi, hip, by rw [ppid_adopted hs k hi, if_pos hppid, hmain]⟩
    · obtain ⟨hje, hjp, heq⟩ := mem_children.mp hj
      have hother : (s.tasks j).ppid ≠ cur := by
        rw [heq]
        exact fun h => hcur (Fin.ext h.symm)
      exact ⟨hje, hjp, by rw [ppid_adopted hs k hje, if_neg hother, heq]⟩
  have hcard := Finset.card_le_card hsub
  rw [Finset.card_insert_of_notMem hold] at hcard
  intro hcounted
  have hc := hcounted ((exists_adopted k p).mpr hp)
  rw [childs_adopted, hcount hp] at hc
  omega

/-! ## Steps -/

/-- Balanced moves keep the counter right. -/
theorem CountedAt.of_move {used : Slot → Prop} {contents : Slot → List Slot}
    (hs : FamilyInv s used contents) (hcount : s.CountedAt p) {c : FamilyCall}
    (hbalanced : s.BalancedAt p c) {used' : Slot → Prop} {contents' : Slot → List Slot}
    (hmove : FamilyMove s used contents c t used' contents') : t.CountedAt p := by
  cases hmove with
  | startFailed => exact hcount
  | @startDiscarded _ _ _ i hfree =>
      refine hcount.congr (exists_discarded hfree) fun j hj => ?_
      have hji : j ≠ i := by
        rintro rfl
        exact hfree hj
      simp [discarded, hji]
  | start hcur _ hfree => exact hcount.created hs hcur hfree fun heq => by rw [heq]
  | execute hcur _ hfree => exact hcount.created hs hcur hfree fun heq => absurd heq hbalanced
  | adopt => exact hcount.adopt hs hbalanced _
  | notify => exact hcount.congr (fun _ => Iff.rfl) fun _ _ => ⟨rfl, rfl⟩
  | reap hcur hrun hcons => exact (hcount.reap hs hcur hrun hcons _).1

/-- A move that is not balanced makes the counter wrong. -/
theorem not_countedAt_of_move {used : Slot → Prop} {contents : Slot → List Slot}
    (hs : FamilyInv s used contents) (hcount : s.CountedAt p) {c : FamilyCall}
    (hbalanced : ¬ s.BalancedAt p c) {used' : Slot → Prop} {contents' : Slot → List Slot}
    (hmove : FamilyMove s used contents c t used' contents') : ¬ t.CountedAt p := by
  cases hmove with
  | startFailed => exact absurd trivial hbalanced
  | startDiscarded => exact absurd trivial hbalanced
  | start => exact absurd trivial hbalanced
  | @execute cur _ _ i hcur _ hfree =>
      obtain rfl : cur = p := not_not.mp hbalanced
      have hne : cur ≠ i := by
        rintro rfl
        exact hfree hcur
      intro hcounted
      have hcur' := hcounted ((exists_created _ cur).mpr (Or.inr hcur))
      have hnew : i ∉ s.children cur := fun h => hfree (mem_children.mp h).1
      rw [children_created hcur hfree _ hne, if_pos rfl,
        Finset.card_insert_of_notMem hnew, ← hcount hcur] at hcur'
      simp [Family.created, hne] at hcur'
  | @adopt cur k _ hcur hrun hmain hlists hmember =>
      simp only [BalancedAt, not_forall] at hbalanced
      obtain ⟨i, hi, hip, hppid, hmoved⟩ := hbalanced
      by_cases hcp : cur = p
      · subst hcp
        exact not_countedAt_giver hs hcount hcur hmain k (mem_children.mpr ⟨hi, hip, hppid⟩)
      · have htaker : s.mainTask (s.tasks i).cpuId = p := by
          by_contra hother
          exact hmoved ⟨hcp, hother⟩
        exact not_countedAt_taker hs hcount hcp k hi hip hppid htaker
  | notify => exact absurd trivial hbalanced
  | reap => exact absurd trivial hbalanced

end

end Family

/-! ## Runs -/

/-- The runs of the families from a point where the counter of `p` is right, as it is when no task
is in its slot. -/
def countedSystem (p : Slot) : System Family FamilyCall where
  init s := (familySystem fun _ => True).Reachable s ∧ s.CountedAt p
  step s c t := familyStep s c = some t

theorem Family.countedAt_of_reachable {p : Slot} {s : Family}
    (hreach : (countedSystem p).ReachableWhen (Family.BalancedAt p) s) :
    (∃ used contents, FamilyInv s used contents) ∧ s.CountedAt p := by
  refine hreach.invariant
    (P := fun s => (∃ used contents, FamilyInv s used contents) ∧ s.CountedAt p) ?_ ?_
  · rintro s ⟨hboot, hcount⟩
    exact ⟨FamilyInv.of_reachable hboot, hcount⟩
  · rintro s c t ⟨⟨used, contents, hs⟩, hcount⟩ hbalanced hstep
    obtain ⟨used', contents', hmove⟩ := hs.move hstep
    exact ⟨⟨used', contents', hs.of_move hmove⟩, hcount.of_move hs hbalanced hmove⟩

/-- From there on the counter of `p` is the number of its children as long as the steps are
balanced: reaping never wraps it, and `kern_waitpid` reports that there are no children exactly
when there are none. A step that is not balanced makes the counter wrong. -/
theorem familySystem_counted {p : Slot} {s : Family}
    (hreach : (countedSystem p).ReachableWhen (Family.BalancedAt p) s) :
    s.CountedAt p ∧
    (∀ t, familyStep s (.reap p) = some t → (t.tasks p).childs + 1 = (s.tasks p).childs) ∧
    (s.Exists p → (s.kernWaitpidFails p ↔ ∀ i, s.Exists i → i ≠ p → (s.tasks i).ppid ≠ p)) ∧
    ∀ c t, familyStep s c = some t → ¬ s.BalancedAt p c → ¬ t.CountedAt p := by
  obtain ⟨⟨used, contents, hs⟩, hcount⟩ := Family.countedAt_of_reachable hreach
  refine ⟨hcount, fun t hstep => ?_, fun hp => ?_, fun c t hstep hbalanced => ?_⟩
  · obtain ⟨used', contents', hmove⟩ := hs.move hstep
    cases hmove with
    | reap hcur hrun hcons => exact (hcount.reap hs hcur hrun hcons _).2 rfl
  · rw [Family.kernWaitpidFails, decide_eq_true_iff, hcount hp, Finset.card_eq_zero,
      Finset.eq_empty_iff_forall_notMem]
    simp only [Family.mem_children, not_and]
  · obtain ⟨used', contents', hmove⟩ := hs.move hstep
    exact Family.not_countedAt_of_move hs hcount hbalanced hmove

/-! ## The counters after boot -/

/-- `smp_init` does not count the main tasks it makes. -/
theorem bootFamily_countedAt {p : Slot} : bootFamily.CountedAt p ↔ p ≠ 0 := by
  constructor
  · rintro hcount rfl
    have hsub : ({1, 2} : Finset Slot) ⊆ bootFamily.children 0 := by
      intro i hi
      have hle : i.val ≤ nrCpus ∧ i ≠ 0 := by
        rcases Finset.mem_insert.mp hi with rfl | hi
        · decide
        · rw [Finset.mem_singleton.mp hi]
          decide
      have hexist := exists_bootFamily.mpr hle.1
      exact Family.mem_children.mpr ⟨hexist, hle.2, ppid_bootFamily hexist⟩
    have hcard := Finset.card_le_card hsub
    rw [← hcount (exists_bootFamily.mpr (Nat.zero_le _))] at hcard
    exact absurd hcard (by decide)
  · intro hp hexist
    have hempty : bootFamily.children p = ∅ := by
      refine Finset.eq_empty_of_forall_notMem fun i hi => ?_
      obtain ⟨hi, -, hppid⟩ := Family.mem_children.mp hi
      rw [ppid_bootFamily hi] at hppid
      exact hp (Fin.ext hppid.symm)
    rw [hempty, tasks_bootFamily hexist, if_neg fun hzero : p.val = 0 => hp (Fin.ext hzero)]
    rfl

/-- A task of the first CPU reaps its only child and is told before that it has one, and
afterwards that it has none. -/
theorem bootFamily_waitpid : ∃ t u : Family,
    (countedSystem 257).ReachableWhen (Family.BalancedAt 257) t ∧
    t.kernWaitpidFails 257 = false ∧ familyStep t (.reap 257) = some u ∧
    (u.tasks 257).childs + 1 = (t.tasks 257).childs ∧ u.kernWaitpidFails 257 = true := by
  have hboot : (countedSystem 257).ReachableWhen (Family.BalancedAt 257) bootFamily :=
    .init ⟨.init ⟨bootFamily_booted, trivial⟩, bootFamily_countedAt.mpr (by decide)⟩
  have hnext (s : Family) (c : FamilyCall) (t : Family) (h : familyStep s c = some t) :
      (countedSystem 257).step s c t := h
  have hrun : ((System.runWhen (fun s c => decide (s.BalancedAt 257 c)) familyStep bootFamily
      exitOfChild).map fun t => ((t.Exists 257 : Bool), (t.Exists 258 : Bool),
        (t.tasks 258).ppid, (familyStep t (.reap 257)).map fun u => u.kernWaitpidFails 257)) =
      some (true, true, 257, some true) := by
    decide +kernel
  obtain ⟨t, hreach, hview⟩ := hboot.exists_run hnext hrun
  simp only [Prod.mk.injEq, decide_eq_true_eq] at hview
  obtain ⟨hparent, hchild, hppid, hreap⟩ := hview
  obtain ⟨u, hstep, hlast⟩ := Option.map_eq_some_iff.mp hreap
  obtain ⟨-, hcounts, hfails, -⟩ := familySystem_counted hreach
  refine ⟨t, u, hreach, Bool.eq_false_iff.mpr fun h => ?_, hstep, hcounts u hstep, hlast⟩
  exact (hfails hparent).mp h 258 hchild (by decide) hppid

/-- A process that has made another one by `proc_execute` has a child and is told that it has
none. -/
theorem bootFamily_execute : ∃ t, (familySystem fun _ => True).Reachable t ∧ t.Exists 257 ∧
    ¬ t.CountedAt 257 ∧ t.kernWaitpidFails 257 = true ∧ 258 ∈ t.children 257 := by
  have hboot : (familySystem fun _ => True).Reachable bootFamily :=
    .init ⟨bootFamily_booted, trivial⟩
  have hnext (s : Family) (c : FamilyCall) (t : Family) (h : familyStep s c = some t) :
      (familySystem fun _ => True).step s c t := h
  have hrun : ((System.runWhen (fun _ _ => true) familyStep bootFamily
      [.procExecute 0 4096 true, .procExecute 257 4096 true]).map fun t =>
        ((t.Exists 257 : Bool), (t.tasks 257).childs, (t.Exists 258 : Bool),
          (t.tasks 258).ppid)) =
      some (true, 0, true, 257) := by
    decide +kernel
  obtain ⟨t, hreach, hview⟩ := hboot.exists_run hnext hrun
  simp only [Prod.mk.injEq, decide_eq_true_eq] at hview
  obtain ⟨hparent, hchilds, hchild, hppid⟩ := hview
  have hmem : 258 ∈ t.children 257 := Family.mem_children.mpr ⟨hchild, by decide, hppid⟩
  refine ⟨t, hreach, hparent, fun hcount => ?_, ?_, hmem⟩
  · have hempty := hcount hparent
    rw [hchilds, eq_comm, Finset.card_eq_zero] at hempty
    exact Finset.notMem_empty _ (hempty ▸ hmem)
  · rw [Family.kernWaitpidFails, hchilds]
    rfl

end ClayFigure
