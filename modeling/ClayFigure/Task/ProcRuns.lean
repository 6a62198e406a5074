/-
# Processes and their memory

Processes are created, are given frames when they touch pages, free pages and are taken apart, in
any order and with the rest of the kernel using the same two allocators in between. Each process
owns its page tables and the frames behind its pages; the kernel has what its own calls have got.
These parts never meet and nothing is lost: `free_page_table` gives back the whole part of a
process, and what one process does changes the addresses of no other.

A call is one step. System calls run with interrupts on, so that another task can come in between
the accesses of one; what it does there is not spoken of.
-/

import ClayFigure.Task.ProcExit

namespace ClayFigure

open ClayFigure.Math

/-! ## Runs -/

/-- The memory with the directories of the processes that exist. What the kernel has got by calls
of its own is kept along, and not read. -/
structure ProcsState where
  blocks : BlockState
  dirs : List Nat
  kernel : Set Resource

/-- A process is created, touches or frees a page, or exits with its pages given back once; or the
rest of the kernel makes a call. -/
inductive ProcsCall
  | create
  | map (dir vaddr : Nat)
  | unmap (dir inAddr : Nat)
  | exit (dir : Nat)
  | kernel (c : BlockCall)

/-- One call; `none` is a failed `ASSERT`. -/
def procsStep (s : ProcsState) : ProcsCall → Option ProcsState
  | .create =>
      match s.blocks.createPageDir with
      | some (some dir, blocks) => some { s with blocks, dirs := dir :: s.dirs }
      | _ => none
  | .map dir vaddr => do
      let (_, blocks) ← s.blocks.mapFrame dir vaddr
      return { s with blocks }
  | .unmap dir inAddr => do
      let blocks ← s.blocks.unmapFrame dir inAddr
      return { s with blocks }
  | .exit dir => do
      let blocks ← s.blocks.freePageTable dir
      return { s with blocks, dirs := s.dirs.erase dir }
  | .kernel c => do
      let blocks ← blockStep s.blocks c
      return { s with
        blocks
        kernel := s.kernel ∩ blocks.held ∪ blocks.held \ s.blocks.held }

namespace ProcsState

/-- `to_physical_address` in a process; 0 is `NULL`. -/
def translate (s : ProcsState) (dir vaddr : Nat) : Nat :=
  s.blocks.alloc.memory.toPhysicalAddress dir vaddr

/-- The rest of the kernel gives back what it has got, and does not write to the tables of
processes. -/
def KernelCall (s : ProcsState) : BlockCall → Prop
  | .kfree b => ∃ g, .block b g ∈ s.kernel
  | .store a _ => ∀ b g, .block b g ∈ s.blocks.held \ s.kernel → ¬ (b ≤ a ∧ a < b + blockSize g)
  | .frames (.free addr n) => .frames addr n ∈ s.kernel
  | _ => True

/-- What each party has: the kernel, and each process. -/
def part (s : ProcsState) : Option Nat → Set Resource
  | none => s.kernel
  | some dir => {r | dir ∈ s.dirs ∧ r ∈ s.blocks.owned dir}

end ProcsState

/-- Calls for processes that exist; a page fault comes up in pages that are not mapped only. -/
def ProcsAllowed (s : ProcsState) : ProcsCall → Prop
  | .create => True
  | .map dir vaddr => dir ∈ s.dirs ∧ UserHalf vaddr ∧ s.translate dir vaddr = 0
  | .unmap dir inAddr => dir ∈ s.dirs ∧ UserHalf inAddr
  | .exit dir => dir ∈ s.dirs
  | .kernel c => BlockAllowed s.blocks c ∧ s.KernelCall c

/-- The allocators are set up, and there is no process. -/
structure ProcsInit (s : ProcsState) : Prop where
  blocks : BlockInit s.blocks
  dirs : s.dirs = []
  kernel : s.kernel = s.blocks.held

/-- Histories of all processes. -/
def procsSystem : System ProcsState ProcsCall where
  init := ProcsInit
  step s c t := procsStep s c = some t

/-- The pages that a call is about. -/
def ProcsCall.Touches : ProcsCall → Nat → Nat → Prop
  | .map dir vaddr, dir', vaddr' => dir' = dir ∧ vaddr' / pgSize = vaddr / pgSize
  | .unmap dir inAddr, dir', vaddr' => dir' = dir ∧ vaddr' / pgSize = inAddr / pgSize
  | .exit dir, dir', _ => dir' = dir
  | _, _, _ => False

/-! ## The calls of the kernel -/

namespace BlockState

open Allocator

variable {s t : BlockState} {contents : Group → List Nat} {group : Nat → Group}

/-- A call of the kernel exchanges some of what it has got. -/
theorem acts_kernel (h : BlockInv s contents group) {kernel : Set Resource}
    (hkernel : kernel ⊆ s.held) {dirs : List Nat} {c : BlockCall} (hallowed : BlockAllowed s c)
    (hcall : (ProcsState.mk s dirs kernel).KernelCall c) (hstep : blockStep s c = some t) :
    ∃ part part', part ⊆ kernel ∧ s.Acts t part part' := by
  cases c with
  | kmalloc size alignment boundary addr =>
      obtain ⟨hreq, hfound⟩ := hallowed
      obtain ⟨status, b, a, heq, -, hout⟩ := h.kmalloc hreq addr
      simp only [blockStep, heq, Option.bind_eq_bind, Option.bind_some, Option.pure_def,
        Option.some.injEq] at hstep
      have hbytes (c : Nat) (g : Group) (hc : .block c g ∈ s.held) (x : Nat)
          (hx : c ≤ x ∧ x < c + blockSize g) : a.bytes x = s.alloc.bytes x :=
        h.bytes_kmalloc hreq heq hc hx
      subst hstep
      rcases hout with ⟨rfl, -⟩ | ⟨rfl, -⟩ | ⟨rfl, g, hg, hgranted, -⟩
      · exact absurd heq (hfound b a)
      · exact ⟨∅, ∅, Set.empty_subset _, .of_held rfl (Set.empty_subset _)
          fun c g hc => hbytes c g hc.1⟩
      · refine ⟨∅, {.block b g}, Set.empty_subset _, .of_insert ?_ (fun hin => ?_) hbytes⟩
        · simp only [hg]
          ext r
          cases r <;> simp [held]
        · have hapart := hgranted.apart _ hin
          have hpos := blockSize_pos g
          simp only at hapart
          omega
  | kfree b =>
      obtain ⟨g, hb⟩ := hcall
      have hheld : s.Held (.kfree b) := ⟨g, hkernel hb⟩
      obtain ⟨r, hr, hacts, hgiven⟩ := acts_release h hheld hstep
      have hsame := (hgiven (.block b g) (hkernel hb)).mp (List.mem_singleton_self _)
      exact ⟨{r}, ∅, Set.singleton_subset_iff.mpr (hsame ▸ hb), hacts⟩
  | store a cell =>
      obtain rfl := Option.some.inj hstep
      refine ⟨kernel, kernel, subset_rfl, .of_held rfl hkernel fun b g hb x hx => ?_⟩
      refine Function.update_of_ne ?_ ..
      rintro rfl
      exact hcall b g hb hx
  | frames d =>
      obtain ⟨u, hframe, ht⟩ := Option.bind_eq_some_iff.mp hstep
      obtain rfl := Option.some.inj ht
      cases d with
      | alloc n =>
          rcases frameStep_alloc hframe with rfl | ⟨index, hfirst, hlive, -⟩
          · exact ⟨∅, ∅, Set.empty_subset _, .of_held rfl (Set.empty_subset _)
              fun _ _ _ _ _ => rfl⟩
          · refine ⟨∅, {.frames (index * pgSize) n}, Set.empty_subset _,
              .of_insert ?_ (fun hin => ?_) fun _ _ _ _ _ => rfl⟩
            · ext r
              cases r <;> simp [held, hlive]
            · -- what is held is not free
              have hpos : 0 < n := h.rep.frames.nonempty _ hin
              have hused := h.rep.frames.used _ hin
              rw [allocFrames_mk] at hused
              exact Finset.disjoint_left.mp hused (Finset.left_mem_Ico.mpr (by omega))
                (hfirst.run index le_rfl (by omega))
      | free addr n =>
          obtain ⟨hheld, hlive, -⟩ := frameStep_free hframe
          refine ⟨{.frames addr n}, ∅, Set.singleton_subset_iff.mpr hcall,
            .of_erase ?_ fun _ _ _ _ _ => rfl⟩
          ext r
          cases r with
          | block b g => simp [held]
          | frames a k =>
              simp only [held, Set.mem_ofPred_eq, hlive, Set.mem_sdiff, Set.mem_singleton_iff,
                Resource.frames.injEq, (others_nodup h).mem_erase_iff, ne_eq, Prod.mk.injEq]
              exact and_comm

end BlockState

/-! ## The invariant -/

/-- Each process owns its tables and frames, and no part meets another. -/
structure ProcsInv (s : ProcsState) : Prop where
  inv : ∃ contents group, BlockInv s.blocks contents group
  owns : ∀ dir ∈ s.dirs, s.blocks.Owns dir
  parts : Parts s.blocks.held s.part
  nodup : s.dirs.Nodup

namespace ProcsState

variable {s t : ProcsState} {p : Nat}

theorem part_of_mem (hp : p ∈ s.dirs) : s.part (some p) = s.blocks.owned p :=
  Set.ext fun _ => and_iff_right hp

theorem part_of_not_mem (hp : p ∉ s.dirs) : s.part (some p) = ∅ :=
  Set.eq_empty_of_forall_notMem fun _ hr => hp hr.1

/-- A process changes the part of its own. -/
theorem part_eq_update (hkernel : t.kernel = s.kernel)
    (hdirs : ∀ q, q ≠ p → (q ∈ t.dirs ↔ q ∈ s.dirs))
    (howned : ∀ q ∈ s.dirs, q ≠ p → t.blocks.owned q = s.blocks.owned q) :
    t.part = Function.update s.part (some p) (t.part (some p)) := by
  funext i
  by_cases hi : i = some p
  · rw [hi, Function.update_self]
  · rw [Function.update_of_ne hi]
    cases i with
    | none => exact hkernel
    | some q =>
        have hq : q ≠ p := fun heq => hi (congrArg some heq)
        by_cases hmem : q ∈ s.dirs
        · rw [part_of_mem hmem, part_of_mem ((hdirs q hq).mpr hmem), howned q hmem hq]
        · rw [part_of_not_mem hmem, part_of_not_mem (mt (hdirs q hq).mp hmem)]

end ProcsState

namespace ProcsInv

open BlockState

variable {s t : ProcsState} {p q : Nat}

/-- What one party does leaves the processes that are others as they are. -/
theorem others (h : ProcsInv s) {i : Option Nat} {part part' : Set Resource} {u : BlockState}
    (hacts : s.blocks.Acts u part part') (hpart : part ⊆ s.part i) (hq : q ∈ s.dirs)
    (hne : i ≠ some q) : u.Owns q ∧ u.owned q = s.blocks.owned q ∧
      ∀ path, path.length ≤ 3 → (u.view q).walk q path = (s.blocks.view q).walk q path := by
  refine (h.owns q hq).of_acts hacts ?_
  have hapart := h.parts.apart i (some q) hne
  rw [ProcsState.part_of_mem hq] at hapart
  exact (hapart.mono_left hpart).symm

/-- A process acts, comes up or goes away. -/
theorem act (h : ProcsInv s) (hinv : ∃ contents group, BlockInv t.blocks contents group)
    (hkernel : t.kernel = s.kernel) (hdirs : ∀ q, q ≠ p → (q ∈ t.dirs ↔ q ∈ s.dirs))
    (hacts : s.blocks.Acts t.blocks (s.part (some p)) (t.part (some p)))
    (howns : p ∈ t.dirs → t.blocks.Owns p) (hnodup : t.dirs.Nodup) : ProcsInv t := by
  have hothers {q : Nat} (hq : q ∈ s.dirs) (hne : q ≠ p) :=
    h.others hacts subset_rfl hq fun heq => hne (Option.some.inj heq).symm
  refine ⟨hinv, fun q hq => ?_, ?_, hnodup⟩
  · by_cases hne : q = p
    · exact hne ▸ howns (hne ▸ hq)
    · exact (hothers ((hdirs q hne).mp hq) hne).1
  · rw [ProcsState.part_eq_update hkernel hdirs fun q hq hne => (hothers hq hne).2.1]
    exact h.parts.exchange (some p) hacts.toExchange

/-- A new directory is one of no process that exists. -/
theorem fresh (h : ProcsInv s) {u : BlockState} (hacts : s.blocks.Acts u ∅ (u.owned p)) :
    p ∉ s.dirs := by
  intro hp
  have hroot : .block (physToVirt p) tableGroup ∈ u.owned p := owned_of_isTable (inTree_root 2)
  exact Set.disjoint_left.mp hacts.fresh ⟨hroot, Set.notMem_empty _⟩ (h.owns p hp).root.live

theorem create (h : ProcsInv s) {u : BlockState}
    (heq : s.blocks.createPageDir = some (some p, u)) :
    ProcsInv { s with blocks := u, dirs := p :: s.dirs } ∧ p ∉ s.dirs ∧
      s.blocks.Acts u ∅ (u.owned p) ∧ ∀ path, path ≠ [] → (u.view p).walk p path = none := by
  obtain ⟨contents, group, hinv⟩ := h.inv
  obtain ⟨contents', group', hinv', howns, hacts, hempty⟩ := createPageDir_spec hinv heq
  have hp := h.fresh hacts
  refine ⟨h.act (p := p) ⟨contents', group', hinv'⟩ rfl (fun q hq => ?_) ?_ (fun _ => howns)
    (List.nodup_cons.mpr ⟨hp, h.nodup⟩), hp, hacts, hempty⟩
  · simp [hq]
  · rw [ProcsState.part_of_not_mem hp, ProcsState.part_of_mem List.mem_cons_self]
    exact hacts

/-- A process that stays acts on what it owns. -/
theorem acts (h : ProcsInv s) {u : BlockState}
    (hinv : ∃ contents group, BlockInv u contents group) (hp : p ∈ s.dirs) (howns : u.Owns p)
    (hacts : s.blocks.Acts u (s.blocks.owned p) (u.owned p)) :
    ProcsInv { s with blocks := u } := by
  refine h.act (p := p) hinv rfl (fun _ _ => Iff.rfl) ?_ (fun _ => howns) h.nodup
  rw [ProcsState.part_of_mem hp, ProcsState.part_of_mem (s := { s with blocks := u }) hp]
  exact hacts

theorem exit (h : ProcsInv s) (hp : p ∈ s.dirs) :
    ∃ u, s.blocks.freePageTable p = some u ∧
      ProcsInv { s with blocks := u, dirs := s.dirs.erase p } ∧
      s.blocks.Acts u (s.blocks.owned p) ∅ ∧
      s.blocks.Run ((s.blocks.view p).tableCalls 3 p) u := by
  obtain ⟨contents, group, hinv⟩ := h.inv
  obtain ⟨u, contents', group', hfree, hinv', hacts, hrun⟩ := (h.owns p hp).exit hinv
  have hnot : p ∉ s.dirs.erase p := h.nodup.not_mem_erase
  refine ⟨u, hfree, h.act (p := p) ⟨contents', group', hinv'⟩ rfl
    (fun q hq => List.mem_erase_of_ne hq) ?_ (fun hin => absurd hin hnot) (h.nodup.erase p),
    hacts, hrun⟩
  rw [ProcsState.part_of_mem hp, ProcsState.part_of_not_mem hnot]
  exact hacts

/-- The kernel acts on what it has got. -/
theorem kernel (h : ProcsInv s) {c : BlockCall} {u : BlockState}
    (hallowed : BlockAllowed s.blocks c) (hcall : s.KernelCall c)
    (hstep : blockStep s.blocks c = some u) :
    ProcsInv { s with
        blocks := u
        kernel := s.kernel ∩ u.held ∪ u.held \ s.blocks.held } ∧
      ∃ part part', part ⊆ s.part none ∧ s.blocks.Acts u part part' := by
  obtain ⟨contents, group, hinv⟩ := h.inv
  have hkernel : s.kernel ⊆ s.blocks.held := by
    rw [h.parts.covered]
    exact Set.subset_iUnion s.part none
  obtain ⟨part, part', hpart, hacts⟩ := acts_kernel hinv hkernel hallowed hcall hstep
  -- what the kernel keeps is counted in
  have hframe := hacts.frame (Set.sdiff_subset.trans hkernel : s.kernel \ part ⊆ _)
    Set.disjoint_sdiff_left
  rw [Set.union_sdiff_cancel hpart] at hframe
  have hnew : part' ∪ s.kernel \ part = s.kernel ∩ u.held ∪ u.held \ s.blocks.held := by
    have hfresh := Set.disjoint_left.mp hacts.fresh
    rw [hacts.after]
    ext r
    have hin : r ∈ s.kernel → r ∈ s.blocks.held := fun hr => hkernel hr
    have hsub : r ∈ part → r ∈ s.kernel := fun hr => hpart hr
    have hr : r ∈ part' → r ∉ part → r ∉ s.blocks.held := fun hr hnot => hfresh ⟨hr, hnot⟩
    simp only [Set.mem_union, Set.mem_sdiff, Set.mem_inter_iff]
    tauto
  have hothers {q : Nat} (hq : q ∈ s.dirs) :=
    h.others (i := none) hacts hpart hq (by simp)
  refine ⟨⟨h.inv.elim fun _ h => ?_, fun q hq => (hothers hq).1, ?_, h.nodup⟩, part, part', hpart,
    hacts⟩
  · exact h.elim fun _ h => h.step hallowed hstep
  · have hparts := h.parts.exchange none hframe.toExchange
    rw [hnew] at hparts
    convert hparts using 1
    funext i
    cases i with
    | none => rw [Function.update_self]; rfl
    | some q =>
        rw [Function.update_of_ne (by simp)]
        by_cases hq : q ∈ s.dirs
        · rw [ProcsState.part_of_mem hq]
          exact (ProcsState.part_of_mem (s := { s with blocks := u }) hq).trans (hothers hq).2.1
        · rw [ProcsState.part_of_not_mem hq]
          exact ProcsState.part_of_not_mem (s := { s with blocks := u }) hq

theorem init (hinit : ProcsInit s) : ProcsInv s := by
  have hdirs := hinit.dirs
  refine ⟨⟨_, _, .init hinit.blocks⟩, by simp [hdirs], ⟨fun i j hne => ?_, ?_⟩, by simp [hdirs]⟩
  · cases i with
    | none =>
        cases j with
        | none => exact absurd rfl hne
        | some q =>
            rw [ProcsState.part_of_not_mem (by simp [hdirs])]
            exact Set.disjoint_empty _
    | some p =>
        rw [ProcsState.part_of_not_mem (by simp [hdirs])]
        exact Set.empty_disjoint _
  · ext r
    rw [← hinit.kernel, Set.mem_iUnion]
    constructor
    · exact fun hr => ⟨none, hr⟩
    · rintro ⟨i, hr⟩
      cases i with
      | none => exact hr
      | some p => exact absurd hr.1 (by simp [hdirs])

/-! ## Addresses -/

/-- What a user's address is translated to. -/
theorem translate_eq (h : ProcsInv s) (hp : p ∈ s.dirs) {vaddr : Nat} (hvaddr : UserHalf vaddr) :
    s.translate p vaddr =
      match (s.blocks.view p).walk p (Memory.indexPath vaddr) with
      | none => 0
      | some f => f + vaddr % pgSize := by
  obtain ⟨contents, group, hinv⟩ := h.inv
  exact (h.owns p hp).toPhysicalAddress_eq hinv hvaddr

/-- An address is translated if its page has a frame. -/
theorem walk_of_translate (h : ProcsInv s) (hp : p ∈ s.dirs) {vaddr : Nat}
    (hvaddr : UserHalf vaddr) (hne : s.translate p vaddr ≠ 0) : ∃ f,
      (s.blocks.view p).walk p (Memory.indexPath vaddr) = some f ∧ f % pgSize = 0 ∧
      s.translate p vaddr = f + vaddr % pgSize ∧ .frames f 1 ∈ s.blocks.owned p := by
  have heq := h.translate_eq hp hvaddr
  obtain ⟨contents, group, hinv⟩ := h.inv
  cases hwalk : (s.blocks.view p).walk p (Memory.indexPath vaddr) with
  | none =>
      rw [hwalk] at heq
      exact absurd heq hne
  | some f =>
      rw [hwalk] at heq
      have hframe := (h.owns p hp).frame_bounds hinv rfl hwalk
      exact ⟨f, rfl, hframe.1, heq, rfl, _, rfl, hwalk⟩

theorem walk_of_translate_zero (h : ProcsInv s) (hp : p ∈ s.dirs) {vaddr : Nat}
    (hvaddr : UserHalf vaddr) (hzero : s.translate p vaddr = 0) :
    (s.blocks.view p).walk p (Memory.indexPath vaddr) = none := by
  have heq := h.translate_eq hp hvaddr
  obtain ⟨contents, group, hinv⟩ := h.inv
  cases hwalk : (s.blocks.view p).walk p (Memory.indexPath vaddr) with
  | none => rfl
  | some f =>
      rw [hwalk, hzero] at heq
      have hframe := (h.owns p hp).frame_bounds hinv rfl hwalk
      simp only at heq
      omega

/-- Pages that are walked to alike are translated alike. -/
theorem translate_congr (h : ProcsInv s) (h' : ProcsInv t) (hp : p ∈ s.dirs) (hp' : p ∈ t.dirs)
    {vaddr : Nat} (hvaddr : UserHalf vaddr)
    (hwalk : (t.blocks.view p).walk p (Memory.indexPath vaddr) =
      (s.blocks.view p).walk p (Memory.indexPath vaddr)) :
    t.translate p vaddr = s.translate p vaddr := by
  rw [h'.translate_eq hp' hvaddr, h.translate_eq hp hvaddr, hwalk]

theorem indexPath_ne {v w : Nat} (hv : UserHalf v) (hw : UserHalf w)
    (hne : v / pgSize ≠ w / pgSize) : Memory.indexPath v ≠ Memory.indexPath w :=
  fun heq => hne ((Memory.indexPath_eq_iff (Or.inl hv) (Or.inl hw)).mp heq)

/-- One call keeps the invariant, and the addresses it is not about. -/
theorem step (h : ProcsInv s) {c : ProcsCall} (hallowed : ProcsAllowed s c)
    (hstep : procsStep s c = some t) : ProcsInv t ∧ ∀ q ∈ s.dirs, ∀ w, UserHalf w →
      ¬ c.Touches q w → t.translate q w = s.translate q w := by
  obtain ⟨contents, group, hinv⟩ := h.inv
  cases c with
  | create =>
      simp only [procsStep] at hstep
      split at hstep
      · next p u heq =>
          obtain rfl := Option.some.inj hstep
          obtain ⟨hnew, hp, hacts, -⟩ := h.create heq
          refine ⟨hnew, fun q hq w hw _ => ?_⟩
          refine h.translate_congr hnew hq (List.mem_cons_of_mem _ hq) hw ?_
          exact (h.others (i := none) hacts (Set.empty_subset _) hq (by simp)).2.2 _ le_rfl
      · cases hstep
  | map p v =>
      obtain ⟨hp, hv, hzero⟩ := hallowed
      obtain ⟨⟨r, u⟩, heq, ht⟩ := Option.bind_eq_some_iff.mp hstep
      obtain rfl := Option.some.inj ht
      obtain ⟨contents', group', hinv', howns, hacts, -, hwalks⟩ :=
        (h.owns p hp).mapFrame hinv hv (h.walk_of_translate_zero hp hv hzero) heq
      have hnew := h.acts ⟨contents', group', hinv'⟩ hp howns hacts
      refine ⟨hnew, fun q hq w hw htouch => h.translate_congr hnew hq hq hw ?_⟩
      by_cases hqp : q = p
      · subst hqp
        refine (hwalks _ rfl).trans (if_neg (indexPath_ne hw hv fun hsame => ?_))
        exact htouch ⟨rfl, hsame⟩
      · refine (h.others (i := some p) hacts ?_ hq fun heq => ?_).2.2 _ le_rfl
        · rw [ProcsState.part_of_mem hp]
        · exact hqp (Option.some.inj heq).symm
  | unmap p v =>
      obtain ⟨hp, hv⟩ := hallowed
      obtain ⟨u, heq, ht⟩ := Option.bind_eq_some_iff.mp hstep
      obtain rfl := Option.some.inj ht
      obtain ⟨hinv', howns, hacts, -, -, -, hwalks⟩ := (h.owns p hp).unmapFrame hinv hv heq
      have hnew := h.acts ⟨contents, group, hinv'⟩ hp howns hacts
      refine ⟨hnew, fun q hq w hw htouch => h.translate_congr hnew hq hq hw ?_⟩
      by_cases hqp : q = p
      · subst hqp
        refine (hwalks _ rfl).trans (if_neg (indexPath_ne hw hv fun hsame => ?_))
        exact htouch ⟨rfl, hsame⟩
      · refine (h.others (i := some p) hacts ?_ hq fun heq => ?_).2.2 _ le_rfl
        · rw [ProcsState.part_of_mem hp]
        · exact hqp (Option.some.inj heq).symm
  | exit p =>
      obtain ⟨u, heq, hnew, hacts, -⟩ := h.exit hallowed
      have ht : procsStep s (.exit p) = some { s with blocks := u, dirs := s.dirs.erase p } := by
        simp [procsStep, heq]
      obtain rfl := Option.some.inj (ht.symm.trans hstep)
      refine ⟨hnew, fun q hq w hw htouch => ?_⟩
      refine h.translate_congr hnew hq ((List.mem_erase_of_ne htouch).mpr hq) hw ?_
      refine (h.others (i := some p) hacts ?_ hq fun heq => ?_).2.2 _ le_rfl
      · rw [ProcsState.part_of_mem hallowed]
      · exact htouch (Option.some.inj heq).symm
  | kernel c =>
      obtain ⟨hallowed, hcall⟩ := hallowed
      obtain ⟨u, heq, ht⟩ := Option.bind_eq_some_iff.mp hstep
      obtain rfl := Option.some.inj ht
      obtain ⟨hnew, part, part', hpart, hacts⟩ := h.kernel hallowed hcall heq
      refine ⟨hnew, fun q hq w hw _ => h.translate_congr hnew hq hq hw ?_⟩
      exact (h.others hacts hpart hq (by simp)).2.2 _ le_rfl

theorem of_reachable (hreach : procsSystem.ReachableWhen ProcsAllowed s) : ProcsInv s :=
  hreach.invariant (fun _ => init) fun _ _ _ h hallowed hstep => (h.step hallowed hstep).1

end ProcsInv

/-! ## Isolation -/

namespace ProcsState

/-- No frame is behind two pages, and a frame behind a page is neither free nor one of the
allocator of blocks. -/
structure Isolated (s : ProcsState) : Prop where
  frames : ∀ p ∈ s.dirs, ∀ q ∈ s.dirs, ∀ v w, UserHalf v → UserHalf w → s.translate p v ≠ 0 →
    s.translate q w ≠ 0 → s.translate p v / pgSize = s.translate q w / pgSize →
    p = q ∧ v / pgSize = w / pgSize
  used : ∀ p ∈ s.dirs, ∀ v, UserHalf v → s.translate p v ≠ 0 →
    s.translate p v / pgSize ∉ s.blocks.alloc.mem.freeFrames ∧
      s.translate p v / pgSize ∉ s.blocks.pages

end ProcsState

theorem ProcsInv.isolated {s : ProcsState} (h : ProcsInv s) : s.Isolated := by
  have hframe {f v : Nat} (hf : f % pgSize = 0) : (f + v % pgSize) / pgSize = f / pgSize := by
    unfold pgSize at *
    omega
  constructor
  · intro p hp q hq v w hv hw hv' hw' hsame
    obtain ⟨f, hwalk, halign, heq, hin⟩ := h.walk_of_translate hp hv hv'
    obtain ⟨f', hwalk', halign', heq', hin'⟩ := h.walk_of_translate hq hw hw'
    rw [heq, heq', hframe halign, hframe halign'] at hsame
    have hf : f' = f := by
      unfold pgSize at *
      omega
    subst hf
    have hpq : p = q := by
      by_contra hne
      have hapart := h.parts.apart (some p) (some q) fun heq => hne (Option.some.inj heq)
      exact Set.disjoint_left.mp hapart ⟨hp, hin⟩ ⟨hq, hin'⟩
    subst hpq
    refine ⟨rfl, (Memory.indexPath_eq_iff (Or.inl hv) (Or.inl hw)).mp ?_⟩
    exact (h.owns p hp).apart _ _ f' rfl rfl hwalk hwalk'
  · intro p hp v hv hv'
    obtain ⟨contents, group, hinv⟩ := h.inv
    obtain ⟨f, -, halign, heq, hin⟩ := h.walk_of_translate hp hv hv'
    have hheld := (h.owns p hp).owned_subset hin
    have hdiv : f / pgSize * pgSize = f := Nat.div_mul_cancel (Nat.dvd_of_mod_eq_zero halign)
    rw [heq, hframe halign]
    have hheld' : (f / pgSize * pgSize, 1) ∈ s.blocks.others := by rwa [hdiv]
    refine ⟨?_, BlockState.not_mem_pages hinv hheld halign⟩
    have hused := hinv.rep.frames.used _ hheld'
    rwa [allocFrames_mk, Nat.Ico_succ_singleton, Finset.disjoint_singleton_left] at hused

/-! ## What a process can count on -/

namespace ProcsInv

variable {s : ProcsState} {p v : Nat}

theorem indexPath_eq {w : Nat} (hv : UserHalf v) (hw : UserHalf w)
    (hsame : w / pgSize = v / pgSize) : Memory.indexPath w = Memory.indexPath v :=
  (Memory.indexPath_eq_iff (Or.inl hw) (Or.inl hv)).mpr hsame

/-- Nothing is mapped in a process that has been created. -/
theorem created (h : ProcsInv s) {t : ProcsState} (hstep : procsStep s .create = some t) :
    ∃ p, t.dirs = p :: s.dirs ∧ p ∉ s.dirs ∧ ∀ w, UserHalf w → t.translate p w = 0 := by
  simp only [procsStep] at hstep
  split at hstep
  · next p u heq =>
      obtain rfl := Option.some.inj hstep
      obtain ⟨hnew, hp, -, hempty⟩ := h.create heq
      refine ⟨p, rfl, hp, fun w hw => ?_⟩
      rw [hnew.translate_eq List.mem_cons_self hw]
      simp only [hempty (Memory.indexPath w) (List.cons_ne_nil _ _)]
  · cases hstep

/-- A process can be created as long as a frame is free, and nothing is mapped in it. -/
theorem createStep (h : ProcsInv s) (hfree : 0 < s.blocks.alloc.mem.freeFrames.card) :
    ∃ p t, procsStep s .create = some t ∧ t.dirs = p :: s.dirs ∧ p ∉ s.dirs ∧
      s.blocks.alloc.mem.TakesOne t.blocks.alloc.mem ∧
      ∀ w, UserHalf w → t.translate p w = 0 := by
  obtain ⟨contents, group, hinv⟩ := h.inv
  obtain ⟨r, u, heq, htakes, hnull⟩ := BlockState.createPageDir_total hinv
  cases r with
  | none => exact absurd (hnull rfl) hfree.ne'
  | some p =>
      have hstep : procsStep s .create = some { s with blocks := u, dirs := p :: s.dirs } := by
        simp [procsStep, heq]
      obtain ⟨p', hdirs, hp, hempty⟩ := h.created hstep
      exact ⟨p', _, hstep, hdirs, hp, htakes, hempty⟩

/-- A page that is mapped is translated to its frame. -/
theorem mapped (h : ProcsInv s) (hp : p ∈ s.dirs) (hv : UserHalf v) (hzero : s.translate p v = 0)
    {f : Nat} {u : BlockState} (heq : s.blocks.mapFrame p v = some (some f, u)) :
    ProcsInv { s with blocks := u } ∧ f / pgSize ∈ s.blocks.alloc.mem.freeFrames ∧
      (u.view p).walk p (Memory.indexPath v) = some f ∧ ∀ w, UserHalf w →
        w / pgSize = v / pgSize →
          ProcsState.translate { s with blocks := u } p w = f + w % pgSize := by
  obtain ⟨contents, group, hinv⟩ := h.inv
  obtain ⟨contents', group', hinv', howns, hacts, hfrom, hwalks⟩ :=
    (h.owns p hp).mapFrame hinv hv (h.walk_of_translate_zero hp hv hzero) heq
  have hnew := h.acts ⟨contents', group', hinv'⟩ hp howns hacts
  refine ⟨hnew, hfrom f rfl, by rw [hwalks _ rfl, if_pos rfl], fun w hw hsame => ?_⟩
  rw [hnew.translate_eq hp hw, hwalks _ rfl, indexPath_eq hv hw hsame, if_pos rfl]

/-- A page can be mapped as long as three frames are free, and its frame was free. -/
theorem mapStep (h : ProcsInv s) (hp : p ∈ s.dirs) (hv : UserHalf v) (hzero : s.translate p v = 0)
    (hfree : 3 ≤ s.blocks.alloc.mem.freeFrames.card) :
    ∃ f u, s.blocks.mapFrame p v = some (some (f * pgSize), u) ∧ 0 < f ∧
      f ∈ s.blocks.alloc.mem.freeFrames ∧ f ∉ u.alloc.mem.freeFrames ∧
      ∀ w, UserHalf w → w / pgSize = v / pgSize →
        ProcsState.translate { s with blocks := u } p w = f * pgSize + w % pgSize := by
  obtain ⟨contents, group, hinv⟩ := h.inv
  obtain ⟨f, u, heq⟩ := BlockState.mapFrame_total hinv p v hfree
  obtain ⟨hnew, hfrom, hwalk, htranslate⟩ := h.mapped hp hv hzero heq
  obtain ⟨contents', group', hinv'⟩ := hnew.inv
  obtain ⟨halign, hpos, -⟩ := (hnew.owns p hp).frame_bounds hinv' rfl hwalk
  have hdiv : f / pgSize * pgSize = f := Nat.div_mul_cancel (Nat.dvd_of_mod_eq_zero halign)
  have hne : ProcsState.translate { s with blocks := u } p v ≠ 0 := by
    rw [htranslate v hv rfl]
    omega
  have hframe : (f + v % pgSize) / pgSize = f / pgSize := by
    unfold pgSize at *
    omega
  have hused := (hnew.isolated.used p hp v hv hne).1
  rw [htranslate v hv rfl, hframe] at hused
  refine ⟨f / pgSize, u, hdiv.symm ▸ heq, ?_, hfrom, hused, fun w hw hsame => ?_⟩
  · unfold pgSize at *
    omega
  · rw [htranslate w hw hsame, hdiv]

/-- A page that is mapped can be unmapped, and its frame is free again. -/
theorem unmapStep (h : ProcsInv s) (hp : p ∈ s.dirs) (hv : UserHalf v) (haligned : v % pgSize = 0)
    (hne : s.translate p v ≠ 0) : ∃ t, procsStep s (.unmap p v) = some t ∧
      t.blocks.alloc.mem.freeFrames =
        insert (s.translate p v / pgSize) s.blocks.alloc.mem.freeFrames ∧
      ∀ w, UserHalf w → w / pgSize = v / pgSize → t.translate p w = 0 := by
  obtain ⟨contents, group, hinv⟩ := h.inv
  obtain ⟨f, hwalk, halign, heq, -⟩ := h.walk_of_translate hp hv hne
  obtain ⟨u, hunmap⟩ := (h.owns p hp).unmapFrame_total hinv hv haligned hwalk
  obtain ⟨hinv', howns, hacts, f', hwalk', hframes, hwalks⟩ :=
    (h.owns p hp).unmapFrame hinv hv hunmap
  obtain rfl := Option.some.inj (hwalk.symm.trans hwalk')
  have hnew := h.acts ⟨contents, group, hinv'⟩ hp howns hacts
  refine ⟨{ s with blocks := u }, by simp [procsStep, hunmap], ?_, fun w hw hsame => ?_⟩
  · rw [heq, haligned, Nat.add_zero]
    exact hframes
  · rw [hnew.translate_eq hp hw, hwalks _ rfl, indexPath_eq hv hw hsame, if_pos rfl]

end ProcsInv

end ClayFigure
