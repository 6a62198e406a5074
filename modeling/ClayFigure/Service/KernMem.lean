/-
# Allocating and freeing a page

`kern_allocate_page` and `kern_free_page` of `service/kern_mem.c`. A page is moved between
the two range tables of the running task, and freeing it also takes back its frame and its
mapping; frames come later, with the first fault in the page.
-/

import ClayFigure.Mem.PageFault
import ClayFigure.Mem.VmmUndo

namespace ClayFigure

open ClayFigure.Math

namespace ProcMem

/-! ## The code -/

/-- `kern_allocate_page`: the status, the value of `*out_addr` and the task. -/
def kernAllocatePage (task : ProcMem) (outAddr : Nat) : SyscallStatus × Nat × ProcMem :=
  let (status, vaddr, vmmFree) := task.vmmFree.vmmAlloc pgSize 0
  let task := { task with vmmFree }
  if status ≠ .kSuccess then (.error, outAddr, task)
  else
    let (status, vmmUsing) := task.vmmUsing.vmmAddRange vaddr pgSize
    let task := { task with vmmUsing }
    if status ≠ .kSuccess then
      (.error, outAddr, { task with vmmFree := (task.vmmFree.vmmAddRange vaddr pgSize).2 })
    else (.success, vaddr, task)

/-- `kern_free_page`; `none` is a failed `ASSERT`. The statuses of the two range tables are
not looked at. -/
def kernFreePage (task : ProcMem) (inAddr : Nat) : Option (SyscallStatus × ProcMem) := do
  let paddr := task.memory.toPhysicalAddress task.pageDir inAddr
  let vmmUsing := (task.vmmUsing.vmmRemoveRange inAddr pgSize).2
  let vmmFree := (task.vmmFree.vmmAddRange inAddr pgSize).2
  let mem ← task.mem.freePhysicalPage paddr 1
  let memory ← task.memory.pageUnmap task.pageDir inAddr
  return (.success, { task with vmmFree, vmmUsing, memory, mem })

/-! ## Allocating -/

/-- The tables are in order and share no address. -/
structure Tables (task : ProcMem) : Prop where
  free : task.vmmFree.Compact
  inUse : task.vmmUsing.Compact
  disjoint : Disjoint task.vmmFree.addresses task.vmmUsing.addresses

/-- The addresses of a page. -/
abbrev page (start : Nat) : Set Nat := Set.Ico start (start + pgSize)

/-- The front page of the first free block that is large enough went from `vmm_free` to
`vmm_using`, and nothing else changed. -/
structure TakesPage (task : ProcMem) (start : Nat) (t : ProcMem) : Prop where
  first : ∃ pre b post, task.vmmFree.list = pre ++ b :: post ∧ (∀ a ∈ pre, a.size < pgSize) ∧
    pgSize ≤ b.size ∧ b.start = start
  free : t.vmmFree.addresses = task.vmmFree.addresses \ page start
  inUse : t.vmmUsing.addresses = task.vmmUsing.addresses ∪ page start
  tables : t.Tables
  rest : t = { task with vmmFree := t.vmmFree, vmmUsing := t.vmmUsing }

/-- The range table a page goes to is full, or there is no page to take. -/
def Exhausted (task : ProcMem) : Prop :=
  (∀ b ∈ task.vmmFree.list, b.size < pgSize) ∨
    task.vmmUsing.totalBlocks ≤ task.vmmUsing.usingBlocks

variable {task : ProcMem}

theorem kernAllocatePage_of_alloc {outAddr vaddr : Nat} {vmmFree : Vmm}
    (halloc : task.vmmFree.vmmAlloc pgSize 0 = (.kSuccess, vaddr, vmmFree)) :
    task.kernAllocatePage outAddr =
      if (task.vmmUsing.vmmAddRange vaddr pgSize).1 = .kSuccess then
        (.success, vaddr, { task with
          vmmFree := vmmFree
          vmmUsing := (task.vmmUsing.vmmAddRange vaddr pgSize).2 })
      else
        (.error, outAddr, { task with
          vmmFree := (vmmFree.vmmAddRange vaddr pgSize).2
          vmmUsing := (task.vmmUsing.vmmAddRange vaddr pgSize).2 }) := by
  unfold kernAllocatePage
  rw [halloc]
  simp only [ne_eq, not_true_eq_false, if_false, ite_not]

theorem kernAllocatePage_success {outAddr v : Nat} {t : ProcMem}
    (heq : task.kernAllocatePage outAddr = (.success, v, t)) :
    ∃ vmmFree, task.vmmFree.vmmAlloc pgSize 0 = (.kSuccess, v, vmmFree) ∧
      (task.vmmUsing.vmmAddRange v pgSize).1 = .kSuccess ∧
      t = { task with
        vmmFree := vmmFree
        vmmUsing := (task.vmmUsing.vmmAddRange v pgSize).2 } := by
  rcases halloc : task.vmmFree.vmmAlloc pgSize 0 with ⟨status, vaddr, vmmFree⟩
  by_cases hstatus : status = .kSuccess
  · subst hstatus
    rw [kernAllocatePage_of_alloc halloc] at heq
    split at heq
    · next hadd =>
        obtain ⟨-, rfl, rfl⟩ := heq
        exact ⟨vmmFree, rfl, hadd, rfl⟩
    · cases heq
  · unfold kernAllocatePage at heq
    rw [halloc] at heq
    simp only [ne_eq, hstatus, not_false_eq_true, if_true] at heq
    cases heq

/-- Neither memory nor the directory is written. -/
theorem kernAllocatePage_memory (task : ProcMem) (outAddr : Nat) :
    (task.kernAllocatePage outAddr).2.2.memory = task.memory ∧
      (task.kernAllocatePage outAddr).2.2.pageDir = task.pageDir := by
  unfold kernAllocatePage
  simp only
  split_ifs
  · exact ⟨rfl, rfl⟩
  · exact ⟨rfl, rfl⟩
  · exact ⟨rfl, rfl⟩

theorem kernAllocatePage_mem (task : ProcMem) (outAddr : Nat) :
    (task.kernAllocatePage outAddr).2.2.mem = task.mem := by
  unfold kernAllocatePage
  simp only
  split_ifs <;> rfl

/-- The page that was taken comes out of `vmm_free`, so it is not in `vmm_using`. -/
theorem Tables.alloc (h : task.Tables) {vaddr : Nat} {vmmFree : Vmm}
    (halloc : task.vmmFree.vmmAlloc pgSize 0 = (.kSuccess, vaddr, vmmFree)) :
    vmmFree.Compact ∧ vaddr + pgSize < wordSize ∧ page vaddr ⊆ task.vmmFree.addresses ∧
      vmmFree.addresses = task.vmmFree.addresses \ page vaddr ∧
      Disjoint (page vaddr) task.vmmUsing.addresses := by
  have hpg : 0 < pgSize := by decide
  rcases h.free.alloc hpg 0 with ⟨⟨start, t⟩, heq, -, hwrap, hremove⟩ | ⟨heq, -⟩
  · rw [halloc] at heq
    simp only [Prod.mk.injEq, true_and] at heq
    obtain ⟨rfl, rfl⟩ := heq
    obtain ⟨hcompact, ⟨-, hsub, haddresses⟩ | ⟨hstatus, -⟩ | ⟨hstatus, -⟩⟩ :=
      hremove.addresses h.free hpg
    · exact ⟨hcompact, hwrap, hsub, haddresses, h.disjoint.mono_left hsub⟩
    · cases hstatus
    · cases hstatus
  · rw [halloc] at heq
    cases heq

/-- A page is moved, or the call fails with both tables as they were, cell by cell. -/
theorem kernAllocatePage_cases (h : task.Tables) (outAddr : Nat) :
    (∃ start t, task.kernAllocatePage outAddr = (.success, start, t) ∧
        task.TakesPage start t) ∨
      task.kernAllocatePage outAddr = (.error, outAddr, task) ∧ task.Exhausted := by
  have hpg : 0 < pgSize := by decide
  rcases h.free.alloc hpg 0 with ⟨⟨start, vmmFree⟩, halloc, -⟩ | ⟨hfail, hnone⟩
  · obtain ⟨hcompact, hwrap, hsub, hfree, hdisjoint⟩ := h.alloc halloc
    have hadd := h.inUse.addRange hpg hwrap hdisjoint
    rw [kernAllocatePage_of_alloc halloc]
    rcases hadd.addresses with ⟨hstatus, husing⟩ | ⟨hstatus, husing⟩
    · rw [if_pos hstatus]
      refine Or.inl ⟨start, _, rfl, ?_, hfree, husing, ⟨hcompact, ?_, ?_⟩, rfl⟩
      · obtain ⟨i, hi, hbefore, hroom, hstart, -⟩ := h.free.vmmAlloc_first hpg halloc
        exact ⟨_, _, _, Vmm.list_split hi, hbefore, hroom, hstart.symm⟩
      · exact hadd.compact h.inUse hpg hwrap
      · simp only [hfree, husing]
        rw [Set.disjoint_union_right]
        exact ⟨h.disjoint.mono_left Set.sdiff_subset, Set.disjoint_sdiff_left⟩
    · rw [if_neg hstatus, h.free.alloc_addRange hpg halloc, husing]
      refine Or.inr ⟨rfl, Or.inr ?_⟩
      exact (not_not.mp (mt hadd.success_iff.mpr hstatus)).1
  · refine Or.inr ⟨?_, Or.inl fun b hb => not_le.mp fun hle => ?_⟩
    · unfold kernAllocatePage
      rw [hfail]
      rfl
    · apply hnone b.start
      exact Range.subset_cover (List.mem_map_of_mem hb) le_rfl (Nat.add_le_add_left hle _)

/-- A page is moved, or the call fails with both tables as they were, cell by cell. Putting
the page back, which the code does not check, never fails. -/
theorem kernAllocatePage_takes (h : task.Tables) (outAddr : Nat) :
    ((∃ start t, task.kernAllocatePage outAddr = (.success, start, t) ∧
        task.TakesPage start t) ∨
      task.kernAllocatePage outAddr = (.error, outAddr, task) ∧ task.Exhausted) ∧
    ∀ start vmmFree, task.vmmFree.vmmAlloc pgSize 0 = (.kSuccess, start, vmmFree) →
      vmmFree.vmmAddRange start pgSize = (.kSuccess, task.vmmFree) :=
  ⟨kernAllocatePage_cases h outAddr, fun _ _ halloc =>
    h.free.alloc_addRange (by decide) halloc⟩

theorem onePage_tables : onePage.Tables := by
  refine ⟨⟨⟨?_, by simp [Vmm.list, onePage]⟩, ?_, by decide⟩, onePage_compact, ?_⟩
  · simp [Vmm.list, onePage, VmmBlock.range]
  · simp [Vmm.list, onePage, wordSize]
  · rw [Set.disjoint_left]
    rintro x ⟨r, hr, hlo, -⟩ ⟨r', hr', -, hhi⟩
    have hr : r = ⟨0xa00000, 0xa00000 + 0x7fffff400000⟩ := by
      simpa [Vmm.list, onePage, VmmBlock.range] using hr
    have hr' : r' = ⟨0x800000, 0x800000 + 0x200000⟩ := by
      simpa [Vmm.list, onePage, VmmBlock.range] using hr'
    rw [hr] at hlo
    rw [hr'] at hhi
    simp only at hlo hhi
    omega

/-- The second page of the user addresses is taken. -/
theorem onePage_takes : ∃ start t, onePage.kernAllocatePage 0 = (.success, start, t) ∧
    onePage.TakesPage start t := by
  rcases (kernAllocatePage_takes onePage_tables 0).1 with htakes | ⟨heq, -⟩
  · exact htakes
  · have hstatus : (onePage.kernAllocatePage 0).1 = .success := by decide
    rw [heq] at hstatus
    cases hstatus

end ProcMem

end ClayFigure
