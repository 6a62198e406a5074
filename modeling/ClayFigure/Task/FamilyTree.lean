/-
# No exited child is lost

Every step keeps the family invariant, so in every reachable table the parent of
a task exists and each task that has died lies in the list of its parent and in
no other. The delicate step is adoption: a task that has given its children away
stays childless for the rest of its life, because only running tasks become
parents.
-/

import ClayFigure.Task.FamilyBoot

namespace ClayFigure

open ClayFigure.Math

namespace FamilyInv

variable {s t : Family} {used : Slot → Prop} {contents : Slot → List Slot}

theorem adopted (hs : FamilyInv s used contents) {cur : Slot} (hcur : s.Exists cur)
    (hrun : s.stage cur = .running) (hmain : s.mainTask (s.tasks cur).cpuId ≠ cur)
    {k : Heap Slot Slot} {contents' : Slot → List Slot} (hlists : k.Holds used contents')
    (hmember : ∀ l, used l → ∀ i, i ∈ contents' l ↔ (l ≠ cur ∧ i ∈ contents l) ∨
      (i ∈ contents cur ∧ l = s.mainTask (s.tasks i).cpuId)) :
    FamilyInv (s.adopted cur k) used contents' := by
  have hexists (i : Slot) : (s.adopted cur k).Exists i ↔ s.Exists i := by
    simp [Family.Exists, Family.adopted]
  have hcpu (i : Slot) : ((s.adopted cur k).tasks i).cpuId = (s.tasks i).cpuId := by
    simp [Family.adopted]
  have hstage (i : Slot) :
      (s.adopted cur k).stage i = if i = cur then .exiting else s.stage i := by
    simp [Family.adopted, Function.update_apply]
  have hmove {i : Slot} (hi : s.Exists i) (hppid : (s.tasks i).ppid = cur) :
      ((s.adopted cur k).tasks i).ppid = s.mainTask (s.tasks i).cpuId := by
    simp [Family.adopted, Family.adoptTask, hi, hppid, hs.pid _ (hs.main i hi).1]
  have hstay {i : Slot} (hppid : (s.tasks i).ppid ≠ cur) :
      ((s.adopted cur k).tasks i).ppid = (s.tasks i).ppid := by
    simp [Family.adopted, Family.adoptTask, hppid]
  refine ⟨fun j hj => ?_, fun j hj => ?_, fun j hj => ?_, fun j hj => ?_, hlists,
    fun j hj i => ?_, fun j hj hstop i hi => ?_⟩
  · rw [hexists] at hj
    simpa [Family.adopted] using hs.pid j hj
  · rw [hexists] at hj
    obtain ⟨hexist, hown, hrunning⟩ := hs.main j hj
    rw [hexists, hcpu, hcpu, hstage]
    exact ⟨hexist, hown, (if_neg (hs.mainTask_ne hj hmain)).trans hrunning⟩
  · rw [hexists] at hj
    by_cases hppid : (s.tasks j).ppid = cur
    · exact ⟨_, (hexists _).mpr (hs.main j hj).1, hmove hj hppid⟩
    · obtain ⟨l, hl, heq⟩ := hs.parent j hj
      exact ⟨l, (hexists l).mpr hl, (hstay hppid).trans heq⟩
  · exact hs.used_of_exists j ((hexists j).mp hj)
  · rw [hmember j hj i, hs.member j hj i, hs.member cur (hs.used_of_exists cur hcur) i, hexists,
      hexists, hstage]
    by_cases hi : s.Exists i
    · have hdied : (if i = cur then Stage.exiting else s.stage i) = .died ↔ s.stage i = .died := by
        by_cases hic : i = cur
        · subst hic
          simp [hrun]
        · rw [if_neg hic]
      rw [hdied]
      by_cases hppid : (s.tasks i).ppid = cur
      · -- A child of the exiting task moves to the list of its main task.
        rw [hmove hi hppid, hppid]
        constructor
        · rintro (⟨hne, -, -, -, heq⟩ | ⟨⟨-, -, hd, -⟩, rfl⟩)
          · exact absurd (Fin.ext heq.symm) hne
          · exact ⟨hi, (hs.main i hi).1, hd, rfl⟩
        · rintro ⟨-, -, hd, heq⟩
          exact Or.inr ⟨⟨hi, hcur, hd, rfl⟩, Fin.ext heq.symm⟩
      · rw [hstay hppid]
        constructor
        · rintro (⟨-, h⟩ | ⟨⟨-, -, -, heq⟩, -⟩)
          · exact h
          · exact absurd heq hppid
        · intro h
          refine Or.inl ⟨?_, h⟩
          rintro rfl
          exact hppid h.2.2.2
    · simp [hi]
  · rw [hexists] at hj hi
    rw [hstage] at hstop
    by_cases hppid : (s.tasks i).ppid = cur
    · rw [hmove hi hppid]
      intro heq
      have hji : s.mainTask (s.tasks i).cpuId = j := Fin.ext heq
      have hne := hs.mainTask_ne hi hmain
      rw [hji] at hne
      rw [if_neg hne, ← hji] at hstop
      exact hstop (hs.main i hi).2.2
    · rw [hstay hppid]
      by_cases hjc : j = cur
      · rwa [hjc]
      · rw [if_neg hjc] at hstop
        exact hs.childless j hj hstop i hi

theorem notified (hs : FamilyInv s used contents) {cur parent : Slot} (hcur : s.Exists cur)
    (hexit : s.stage cur = .exiting) (hparent : s.Exists parent)
    (hppid : (s.tasks cur).ppid = parent) {k : Heap Slot Slot}
    (hlists : k.Holds used (Function.update contents parent (contents parent ++ [cur]))) :
    FamilyInv (s.notified cur k) used
      (Function.update contents parent (contents parent ++ [cur])) := by
  have hstage (i : Slot) :
      (s.notified cur k).stage i = if i = cur then .died else s.stage i := by
    simp [Family.notified, Function.update_apply]
  refine ⟨hs.pid, fun j hj => ?_, hs.parent, hs.used_of_exists, hlists, fun j hj i => ?_,
    fun j hj hstop i hi => ?_⟩
  · obtain ⟨hexist, hown, hrunning⟩ := hs.main j hj
    have hne : s.mainTask (s.tasks j).cpuId ≠ cur := by
      intro heq
      rw [heq, hexit] at hrunning
      cases hrunning
    exact ⟨hexist, hown, by rw [hstage]; exact (if_neg hne).trans hrunning⟩
  · have hold := hs.member j hj i
    rw [hstage]
    by_cases hic : i = cur
    · subst hic
      have hnot : i ∉ contents j := fun h => by
        have hdied := (hold.mp h).2.2.1
        rw [hexit] at hdied
        cases hdied
      by_cases hjp : j = parent
      · subst hjp
        simp only [Function.update_self, List.mem_append, List.mem_singleton, or_true,
          if_true, true_iff]
        exact ⟨hcur, hparent, trivial, hppid⟩
      · rw [Function.update_of_ne hjp]
        refine iff_of_false hnot fun h => hjp (Fin.ext ?_)
        exact h.2.2.2.symm.trans hppid
    · rw [if_neg hic]
      by_cases hjp : j = parent
      · subst hjp
        rw [Function.update_self, List.mem_append, List.mem_singleton, or_iff_left hic]
        exact hold
      · rw [Function.update_of_ne hjp]
        exact hold
  · rw [hstage] at hstop
    by_cases hjc : j = cur
    · subst hjc
      exact hs.childless j hj (by rw [hexit]; decide) i hi
    · rw [if_neg hjc] at hstop
      exact hs.childless j hj hstop i hi

theorem reaped (hs : FamilyInv s used contents) {cur child : Slot} {rest : List Slot}
    (hcur : s.Exists cur) (hrun : s.stage cur = .running) (hcons : contents cur = child :: rest)
    {k : Heap Slot Slot} (hlists : k.Holds used (Function.update contents cur rest)) :
    FamilyInv (s.reaped cur child k) used (Function.update contents cur rest) := by
  have hused := hs.used_of_exists cur hcur
  obtain ⟨hchild, -, hdied, hppid⟩ := (hs.member cur hused child).mp (by simp [hcons])
  have hchildless := hs.childless child hchild (by rw [hdied]; decide)
  have hne : cur ≠ child := by
    rintro rfl
    rw [hrun] at hdied
    cases hdied
  have hexists (i : Slot) : (s.reaped cur child k).Exists i ↔ s.Exists i ∧ i ≠ child := by
    by_cases hi : i = child
    · simp [Family.Exists, Family.reaped, hi]
    · by_cases hic : i = cur <;> simp [Family.Exists, Family.reaped, hi, hic, hne]
  have hkeep {i : Slot} (hi : i ≠ child) :
      ((s.reaped cur child k).tasks i).pid = (s.tasks i).pid ∧
      ((s.reaped cur child k).tasks i).ppid = (s.tasks i).ppid ∧
      ((s.reaped cur child k).tasks i).cpuId = (s.tasks i).cpuId := by
    by_cases hic : i = cur <;> simp [Family.reaped, hi, hic, hne]
  have hnotMain {i : Slot} (hi : s.Exists i) : s.mainTask (s.tasks i).cpuId ≠ child := by
    intro heq
    have hmain := (hs.main i hi).2.2
    rw [heq, hdied] at hmain
    cases hmain
  have hstage : (s.reaped cur child k).stage = s.stage := rfl
  refine ⟨fun j hj => ?_, fun j hj => ?_, fun j hj => ?_, fun j hj => ?_, hlists,
    fun j hj i => ?_, fun j hj hstop i hi => ?_⟩
  · rw [hexists] at hj
    rw [(hkeep hj.2).1, hs.pid j hj.1]
  · rw [hexists] at hj
    obtain ⟨hexist, hown, hrunning⟩ := hs.main j hj.1
    rw [(hkeep hj.2).2.2, hexists]
    exact ⟨⟨hexist, hnotMain hj.1⟩, (hkeep (hnotMain hj.1)).2.2.trans hown, hrunning⟩
  · rw [hexists] at hj
    obtain ⟨l, hl, heq⟩ := hs.parent j hj.1
    refine ⟨l, (hexists l).mpr ⟨hl, ?_⟩, (hkeep hj.2).2.1.trans heq⟩
    rintro rfl
    exact hchildless j hj.1 heq
  · exact hs.used_of_exists j ((hexists j).mp hj).1
  · have hold := hs.member j hj i
    rw [hexists, hexists, hstage]
    by_cases hic : i = child
    · subst hic
      have hnot : i ∉ Function.update contents cur rest j := by
        have hloose := hs.lists.loose_of_removed hused [] rest hcons
        exact hloose j hj
      simp [hnot]
    · rw [(hkeep hic).2.1]
      by_cases hjc : j = cur
      · subst hjc
        rw [hcons, List.mem_cons, or_iff_right hic] at hold
        rw [Function.update_self, hold]
        simp [hic, hne]
      · rw [Function.update_of_ne hjc, hold]
        constructor
        · rintro ⟨hi, hje, hd, heq⟩
          refine ⟨⟨hi, hic⟩, ⟨hje, ?_⟩, hd, heq⟩
          rintro rfl
          exact hchildless i hi heq
        · rintro ⟨⟨hi, -⟩, ⟨hje, -⟩, hd, heq⟩
          exact ⟨hi, hje, hd, heq⟩
  · rw [hexists] at hj hi
    rw [(hkeep hi.2).2.1]
    exact hs.childless j hj.1 hstop i hi.1

/-- Every move keeps the invariant. -/
theorem of_move (hs : FamilyInv s used contents) {c : FamilyCall} {used' : Slot → Prop}
    {contents' : Slot → List Slot} (hmove : FamilyMove s used contents c t used' contents') :
    FamilyInv t used' contents' := by
  cases hmove with
  | startFailed => exact hs
  | startDiscarded hfree => exact hs.discarded hfree
  | start hcur hrun hfree => exact hs.created hcur hrun hfree _
  | execute hcur hrun hfree => exact hs.created hcur hrun hfree _
  | adopt hcur hrun hmain hlists hmember => exact hs.adopted hcur hrun hmain hlists hmember
  | notify hcur hexit hparent hppid hlists =>
      exact hs.notified hcur hexit hparent hppid hlists
  | reap hcur hrun hcons hlists => exact hs.reaped hcur hrun hcons hlists

theorem of_reachable {P : Family → Prop} {guard : Family → FamilyCall → Prop}
    (hreach : (familySystem P).ReachableWhen guard s) :
    ∃ used contents, FamilyInv s used contents := by
  refine hreach.invariant (P := fun s => ∃ used contents, FamilyInv s used contents) ?_ ?_
  · rintro s ⟨hboot, -⟩
    exact ⟨_, _, of_booted hboot⟩
  · rintro s c t ⟨used, contents, hs⟩ - hstep
    obtain ⟨used', contents', hmove⟩ := hs.move hstep
    exact ⟨used', contents', hs.of_move hmove⟩

end FamilyInv

/-- In every reachable table the parent of a task exists, and the lists of exited
children hold, each once, exactly the tasks that have died and were not reaped:
such a task is in the list of its parent and in no other. The list of a slot that
is not in use is empty, or was never set up and is not linked to anything. -/
theorem familySystem_exited {s : Family} (hreach : (familySystem fun _ => True).Reachable s) :
    (∀ i, s.Exists i → ∃ j, s.pidToTask (s.tasks i).ppid = some j) ∧
    ∃ used contents, s.links.Holds used contents ∧ (∀ i, s.Exists i → used i) ∧
      (∀ i, s.Exists i → s.stage i = .died →
        ∃ j, s.pidToTask (s.tasks i).ppid = some j ∧ i ∈ contents j ∧
          ∀ l, used l → i ∈ contents l → l = j) ∧
      (∀ l, used l → ∀ i ∈ contents l, s.Exists i ∧ s.stage i = .died ∧
        s.pidToTask (s.tasks i).ppid = some l) ∧
      ∀ l, ¬ s.Exists l → (used l ∧ contents l = []) ∨ s.links.next (.head l) = none := by
  obtain ⟨used, contents, hs⟩ := FamilyInv.of_reachable hreach
  refine ⟨fun i hi => ?_, used, contents, hs.lists, hs.used_of_exists, fun i hi hdied => ?_,
    fun l hl i hi => ?_, fun l hl => ?_⟩
  · obtain ⟨j, hj, heq⟩ := hs.parent i hi
    exact ⟨j, by rw [heq, Family.pidToTask_coe hj]⟩
  · obtain ⟨j, hj, heq⟩ := hs.parent i hi
    refine ⟨j, by rw [heq, Family.pidToTask_coe hj],
      (hs.member j (hs.used_of_exists j hj) i).mpr ⟨hi, hj, hdied, heq⟩, fun l hl hmem => ?_⟩
    have hother := ((hs.member l hl i).mp hmem).2.2.2
    exact Fin.ext (hother.symm.trans heq)
  · obtain ⟨hie, hle, hdied, heq⟩ := (hs.member l hl i).mp hi
    exact ⟨hie, hdied, by rw [heq, Family.pidToTask_coe hle]⟩
  · by_cases hused : used l
    · refine Or.inl ⟨hused, List.eq_nil_iff_forall_not_mem.mpr fun i hi => hl ?_⟩
      exact ((hs.member l hused i).mp hi).2.1
    · exact Or.inr (hs.lists.blank l hused)

/-- The first task made after boot starts one of its own, which exits and lets its parent be
informed. -/
def exitOfChild : List FamilyCall :=
  [.taskStart 0 4096 true, .taskStart 257 4096 true, .adopt 258, .notify 258]

/-- The child that has exited is in the list of its parent and of nobody else. When it has been
reaped its slot is free, and every task still has a parent. -/
theorem bootFamily_reaped : ∃ t u : Family, familyStep t (.reap 257) = some u ∧
    (t.Exists 258 ∧ t.stage 258 = .died ∧ ∃ used contents, t.links.Holds used contents ∧
      258 ∈ contents 257 ∧ ∀ l, used l → 258 ∈ contents l → l = 257) ∧
    ¬ u.Exists 258 ∧ ∀ i, u.Exists i → ∃ j, u.pidToTask (u.tasks i).ppid = some j := by
  have hboot : (familySystem fun _ => True).Reachable bootFamily :=
    .init ⟨bootFamily_booted, trivial⟩
  have hnext (s : Family) (c : FamilyCall) (t : Family) (h : familyStep s c = some t) :
      (familySystem fun _ => True).step s c t := h
  have hrun : ((System.runWhen (fun _ _ => true) familyStep bootFamily exitOfChild).map
      fun t => ((t.Exists 258 : Bool), t.stage 258, t.pidToTask (t.tasks 258).ppid,
        (familyStep t (.reap 257)).map fun u => (u.Exists 258 : Bool))) =
      some (true, .died, some 257, some false) := by
    decide +kernel
  obtain ⟨t, hreach, hview⟩ := hboot.exists_run hnext hrun
  simp only [Prod.mk.injEq, decide_eq_true_eq] at hview
  obtain ⟨hchild, hdied, hparent, hreap⟩ := hview
  obtain ⟨u, hstep, hfree⟩ := Option.map_eq_some_iff.mp hreap
  obtain ⟨-, used, contents, hholds, -, hmember, -⟩ := familySystem_exited hreach
  obtain ⟨j, hj, hmem, honly⟩ := hmember 258 hchild hdied
  obtain rfl : (257 : Slot) = j := Option.some.inj (hparent.symm.trans hj)
  exact ⟨t, u, hstep, ⟨hchild, hdied, used, contents, hholds, hmem, honly⟩,
    of_decide_eq_false hfree, (familySystem_exited (hreach.step trivial hstep)).1⟩

end ClayFigure
