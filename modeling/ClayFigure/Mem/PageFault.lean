/-
# Page faults

A process is given frames when it first touches a page. `do_page_fault` admits the fault
if `vmm_find` finds the page in one of the ranges the process uses, and that search takes
the address just behind a range for one of its own.
-/

import ClayFigure.Mem.Frame
import ClayFigure.Mem.PageTable
import ClayFigure.Mem.VmmRanges

namespace ClayFigure

open ClayFigure.Math

/-- What the memory services read and write for the running task: the two range tables
and the directory of its `task_struct_t`, physical memory and the frame allocator. -/
structure ProcMem where
  vmmFree : Vmm
  vmmUsing : Vmm
  pageDir : Nat
  memory : Memory
  mem : Mem

/-- How a page fault ends: `default_irq_handler` is called, which does not return, an
`ASSERT` fails, or the task goes on. -/
inductive FaultResult
  | killed (task : ProcMem)
  | halted
  | resumed (task : ProcMem)

/-- `vmm_find`. -/
def Vmm.vmmFind (vmm : Vmm) (addr : Nat) : Bool :=
  vmm.search (fun block => block.start ≤ addr ∧ addr ≤ add64 block.start block.size) <
    vmm.usingBlocks

namespace ProcMem

/-- The page of a fault address. -/
def faultPage (faultAddress : Nat) : Nat := faultAddress &&& pageMask

/-- `do_page_fault`; `pdpt` and `pdt` are the tables `kmalloc` has to give to `page_map`. -/
def doPageFault (task : ProcMem) (faultAddress cr3 : Nat) (pdpt pdt : Option Nat) :
    FaultResult :=
  let faultPage := faultPage faultAddress
  if cr3 = kernelPageDirTablePos then .killed task
  else if task.vmmUsing.vmmFind faultPage = false then .killed task
  else
    match task.mem.allocPhysicalPage 1 with
    | none => .halted
    | some r =>
        match r.status, r.addr with
        | .kSuccess, some paddr =>
            match task.memory.pageMap task.pageDir paddr faultPage pdpt pdt with
            | none => .halted
            | some memory => .resumed { task with memory, mem := r.mem }
        | _, _ => .killed { task with mem := r.mem }

/-- The page lies inside a range the task uses. -/
def Uses (task : ProcMem) (page : Nat) : Prop :=
  ∃ b ∈ task.vmmUsing.list, b.start ≤ page ∧ page + pgSize ≤ b.start + b.size

/-- A fault in a page the task does not use ends it, and nothing is mapped or allocated. -/
def FaultContained (task : ProcMem) (faultAddress cr3 : Nat) (pdpt pdt : Option Nat) : Prop :=
  ¬ task.Uses (faultPage faultAddress) →
    task.doPageFault faultAddress cr3 pdpt pdt = .killed task

end ProcMem

/-! ## The search for the page -/

/-- `vmm_find` takes the end of a range for a part of it. -/
theorem Vmm.Compact.vmmFind_iff {vmm : Vmm} (h : vmm.Compact) (addr : Nat) :
    vmm.vmmFind addr = true ↔ ∃ b ∈ vmm.list, b.start ≤ addr ∧ addr ≤ b.start + b.size := by
  obtain ⟨hle, hno, hyes⟩ := vmm.search_spec fun block =>
    block.start ≤ addr ∧ addr ≤ add64 block.start block.size
  have hends (b : VmmBlock) (hb : b ∈ vmm.list) : add64 b.start b.size = b.start + b.size :=
    add64_of_lt (h.noWrap b hb)
  rw [vmmFind, decide_eq_true_eq]
  constructor
  · intro hlt
    have hin := hyes hlt
    rw [hends _ (mem_list hlt)] at hin
    exact ⟨_, mem_list hlt, by simpa using hin⟩
  · rintro ⟨b, hb, hlo, hhi⟩
    refine lt_of_le_of_ne hle fun heq => ?_
    rw [heq, List.take_of_length_le (vmm.length_list).le] at hno
    have hfalse := hno b hb
    rw [hends b hb] at hfalse
    simp [hlo, hhi] at hfalse

namespace ProcMem

variable {task : ProcMem} {faultAddress cr3 : Nat} {pdpt pdt : Option Nat}

/-- A fault ends the task and leaves everything as it was just when it is refused. -/
theorem doPageFault_killed_iff (task : ProcMem) (faultAddress cr3 : Nat) (pdpt pdt : Option Nat) :
    task.doPageFault faultAddress cr3 pdpt pdt = .killed task ↔
      cr3 = kernelPageDirTablePos ∨ task.vmmUsing.vmmFind (faultPage faultAddress) = false ∨
        task.mem.NoFrame := by
  unfold doPageFault
  simp only
  split_ifs with hkernel hfind
  · exact iff_of_true rfl (Or.inl hkernel)
  · exact iff_of_true rfl (Or.inr (Or.inl hfind))
  · rcases task.mem.allocPhysicalPage_one with ⟨hno, addr, heq⟩ | ⟨hframe, f, m', -, -, heq, -⟩
    · rw [heq]
      exact iff_of_true rfl (Or.inr (Or.inr hno))
    · rw [heq]
      simp only
      refine iff_of_false ?_ ?_
      · split
        · nofun
        · nofun
      · rintro (h | h | h)
        · exact hkernel h
        · exact hfind h
        · exact hframe h

/-- A page outside of the ranges is found just when one of them ends in or right before it. -/
theorem find_outside_iff (h : task.vmmUsing.Compact) {page : Nat} (hout : ¬ task.Uses page) :
    task.vmmUsing.vmmFind page = true ↔ ∃ b ∈ task.vmmUsing.list,
      b.start ≤ page ∧ page ≤ b.start + b.size ∧ b.start + b.size < page + pgSize := by
  rw [h.vmmFind_iff]
  constructor
  · rintro ⟨b, hb, hlo, hhi⟩
    exact ⟨b, hb, hlo, hhi, not_le.mp fun hle => hout ⟨b, hb, hlo, hle⟩⟩
  · rintro ⟨b, hb, hlo, hhi, -⟩
    exact ⟨b, hb, hlo, hhi⟩

/-- A range that ends in a page or right before it excludes another that contains it. -/
theorem not_uses_of_end (h : task.vmmUsing.Compact) {page : Nat} {b : VmmBlock}
    (hb : b ∈ task.vmmUsing.list) (hlo : b.start ≤ page) (hhi : page ≤ b.start + b.size)
    (hend : b.start + b.size < page + pgSize) : ¬ task.Uses page := by
  rintro ⟨c, hc, hclo, hchi⟩
  obtain ⟨pre, post, hlist⟩ := List.append_of_mem hb
  obtain ⟨-, -, hsize, hbelow, habove⟩ := h.split hlist
  rw [hlist] at hc
  rcases List.mem_append.mp hc with hc | hc
  · have := hbelow c hc
    omega
  · rcases List.mem_cons.mp hc with rfl | hc
    · omega
    · have := habove c hc
      omega

/-- A fault outside of the ranges in use is contained unless a range ends in the faulting
page or right before it, the directory is not the kernel's and there is a frame left. -/
theorem faultContained_iff (h : task.vmmUsing.Compact) :
    task.FaultContained faultAddress cr3 pdpt pdt ↔
      cr3 = kernelPageDirTablePos ∨ task.mem.NoFrame ∨
        ∀ b ∈ task.vmmUsing.list, ¬ (b.start ≤ faultPage faultAddress ∧
          faultPage faultAddress ≤ b.start + b.size ∧
          b.start + b.size < faultPage faultAddress + pgSize) := by
  rw [FaultContained, doPageFault_killed_iff]
  constructor
  · intro hcontained
    by_contra hcond
    rw [not_or, not_or] at hcond
    obtain ⟨hkernel, hframe, hend⟩ := hcond
    push Not at hend
    obtain ⟨b, hb, hlo, hhi, hlt⟩ := hend
    have hout := not_uses_of_end h hb hlo hhi hlt
    rcases hcontained hout with hk | hfind | hno
    · exact hkernel hk
    · rw [(find_outside_iff h hout).mpr ⟨b, hb, hlo, hhi, hlt⟩] at hfind
      cases hfind
    · exact hframe hno
  · rintro (hkernel | hno | hend) hout
    · exact Or.inl hkernel
    · exact Or.inr (Or.inr hno)
    · refine Or.inr (Or.inl (Bool.eq_false_iff.mpr fun hfind => ?_))
      obtain ⟨b, hb, hin⟩ := (find_outside_iff h hout).mp hfind
      exact hend b hb hin

/-- A task that has allocated the first page of the user addresses. -/
def onePage : ProcMem where
  vmmFree := ⟨fun _ => ⟨0xa00000, 0x7fffff400000⟩, 1024, 1⟩
  vmmUsing := ⟨fun _ => ⟨0x800000, 0x200000⟩, 1024, 1⟩
  pageDir := 0x1000000
  memory := fun _ => 0
  mem := bootFrames.mem

theorem onePage_compact : onePage.vmmUsing.Compact := by
  refine ⟨⟨?_, by simp [Vmm.list, onePage]⟩, ?_, by decide⟩
  · simp [Vmm.list, onePage, VmmBlock.range]
  · simp [Vmm.list, onePage, wordSize]

theorem onePage_frame : ¬ onePage.mem.NoFrame := by
  rintro (h | h)
  · cases h
  · have hcount := (FrameInv.of_reachable (.init bootFrames_init)).counted
    rw [Mem.Counted, show bootFrames.mem.freeFrames = ∅ from h] at hcount
    cases hcount

/-- With that page in use a fault in the page behind it is given a frame. -/
theorem onePage_not_contained :
    ¬ onePage.FaultContained 0xa00000 0x1000000 (some 0x1001000) (some 0x1002000) := by
  have hmem : (⟨0x800000, 0x200000⟩ : VmmBlock) ∈ onePage.vmmUsing.list := by
    simp [Vmm.list, onePage]
  intro hcontained
  have hout : ¬ onePage.Uses (faultPage 0xa00000) :=
    not_uses_of_end onePage_compact hmem (by decide) (by decide) (by decide)
  rcases (doPageFault_killed_iff ..).mp (hcontained hout) with hkernel | hfind | hno
  · cases hkernel
  · have hfound := (onePage_compact.vmmFind_iff (faultPage 0xa00000)).mpr
      ⟨_, hmem, by decide, by decide⟩
    rw [hfound] at hfind
    cases hfind
  · exact onePage_frame hno

/-- A fault two pages behind it is contained. -/
theorem onePage_contained :
    onePage.FaultContained 0xc12345 0x1000000 (some 0x1001000) (some 0x1002000) := by
  refine (faultContained_iff onePage_compact).mpr (Or.inr (Or.inr fun b hb => ?_))
  have hb : b = ⟨0x800000, 0x200000⟩ := by simpa [Vmm.list, onePage] using hb
  rw [hb]
  decide

end ProcMem

end ClayFigure
