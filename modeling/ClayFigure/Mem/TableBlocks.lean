/-
# Page tables in the blocks of the allocator

The page tables of a process are blocks of `kmalloc`, and the frames it maps come from the frame
allocator. The functions of `mem/page.c` and `task/proc.c` that build a directory, map and unmap
pages in it and take it apart are modelled here on the bytes of these blocks. What they change in
the blocks in use and in the frames that are held is kept along as in `BlockState`, and not read.
As for the blocks, the tables are assumed to lie in frames that the direct map reaches.
-/

import ClayFigure.Math.LittleEndian
import ClayFigure.Mem.KmallocLife

namespace ClayFigure

open ClayFigure.Math

/-! ## Words -/

namespace Allocator

/-- The 64-bit word at an address. -/
def loadWord (s : Allocator) (a : Nat) : Nat := ofLE ((List.range 8).map fun i => s.bytes (a + i))

/-- A 64-bit word is stored. -/
def storeWord (s : Allocator) (a word : Nat) : Allocator :=
  { s with bytes := fun x => if a ≤ x ∧ x < a + 8 then (toLE 8 word).getD (x - a) 0 else s.bytes x }

/-- Where the addresses of the direct map end; how much of it is mapped is up to the boot loader. -/
abbrev directMapEnd : Nat := wordSize - kernelVmaBase

/-- The words of physical memory, as far as they are aligned and in the direct map. -/
def memory (s : Allocator) : Memory := fun p =>
  if p % 8 = 0 ∧ p < directMapEnd then s.loadWord (physToVirt p) else 0

end Allocator

namespace BlockState

/-! ## The code -/

/-- `kmalloc`. -/
def kmalloc (s : BlockState) (size alignment boundary addr : Nat) :
    Option (Status × Nat × BlockState) := do
  let (status, b, alloc) ← s.alloc.kmalloc size alignment boundary addr
  return (status, b, { s with
    alloc
    live := match status, Allocator.groupOf size with
      | .kSuccess, some g => (b, g) :: s.live
      | _, _ => s.live
    pages := pagesAfter s.pages s.alloc.mem alloc.mem })

/-- `kfree`. -/
def kfree (s : BlockState) (addr : Nat) : Option BlockState := blockStep s (.kfree addr)

/-- `alloc_physical_page`. -/
def allocPhysicalPage (s : BlockState) (numberOfPages : Nat) :
    Option (Status × Option Nat × BlockState) := do
  let r ← s.alloc.mem.allocPhysicalPage numberOfPages
  return (r.status, r.addr, { s with
    alloc := { s.alloc with mem := r.mem }
    others := match r.status, r.addr with
      | .kSuccess, some addr => (addr, numberOfPages) :: s.others
      | _, _ => s.others })

/-- `free_physical_page`. -/
def freePhysicalPage (s : BlockState) (addr numberOfPages : Nat) : Option BlockState := do
  let mem ← s.alloc.mem.freePhysicalPage addr numberOfPages
  return { s with
    alloc := { s.alloc with mem }
    others := s.others.erase (addr, numberOfPages) }

/-- A word of memory. -/
def load (s : BlockState) (a : Nat) : Nat := s.alloc.loadWord a

def store (s : BlockState) (a word : Nat) : BlockState :=
  { s with alloc := s.alloc.storeWord a word }

/-- `kmalloc(PT_SIZE, 0, PT_SIZE, ..)`, after which the block is cleared; `none` is also a failed
`ASSERT`. -/
def newTable (s : BlockState) : Option (Nat × BlockState) := do
  let (status, v, s) ← s.kmalloc ptSize 0 ptSize 0
  if status ≠ .kSuccess then none
  else return (v, { s with alloc := s.alloc.memset v ptSize })

/-- What `page_map` does twice: an entry that is not present is made to lead to a new table. -/
def ensureTable (s : BlockState) (entry : Nat) : Option BlockState :=
  if s.load entry &&& pgP = 0 then do
    let (v, s) ← s.newTable
    return s.store entry (virtToPhys v ||| pgTableFlags)
  else some s

/-- `page_map`. -/
def pageMap (s : BlockState) (pml4t paddr vaddr : Nat) : Option BlockState := do
  let paddr := paddr &&& pageMask
  let vaddr := vaddr &&& pageMask
  let pml4e := physToVirt pml4t + 8 * addrPml4tIndex vaddr
  let s ← s.ensureTable pml4e
  let pdpte := (s.load pml4e &&& entryMask) + 8 * addrPdptIndex vaddr
  let s ← s.ensureTable (physToVirt pdpte)
  let pde := (s.load (physToVirt pdpte) &&& entryMask) + 8 * addrPdtIndex vaddr
  return s.store (physToVirt pde) (paddr ||| pgDefaultFlags)

/-- `page_unmap`; `none` is a failed `ASSERT`. -/
def pageUnmap (s : BlockState) (pml4t vaddr : Nat) : Option BlockState :=
  let vaddr := vaddr &&& pageMask
  let pml4e := physToVirt pml4t + 8 * addrPml4tIndex vaddr
  if s.load pml4e &&& pgP = 0 then none
  else
    let pdpte := (s.load pml4e &&& entryMask) + 8 * addrPdptIndex vaddr
    if s.load (physToVirt pdpte) &&& pgP = 0 then none
    else
      let pde := (s.load (physToVirt pdpte) &&& entryMask) + 8 * addrPdtIndex vaddr
      if s.load (physToVirt pde) &&& pgP = 0 then none
      else some (s.store (physToVirt pde) (s.load (physToVirt pde) &&& 0xfffffffffffffffe))

/-- `memcpy(pgdir_v + 0x100, kernel_dir + 0x100, PT_SIZE / 2)`. -/
def copyKernelHalf (s : BlockState) (pgdirV : Nat) : BlockState :=
  { s with alloc := { s.alloc with
    bytes := fun x =>
      if pgdirV + ptSize / 2 ≤ x ∧ x < pgdirV + ptSize then
        s.alloc.bytes (physToVirt kernelPageDirTablePos + (x - pgdirV))
      else s.alloc.bytes x } }

/-- `create_page_dir`; the inner `none` is `NULL`. -/
def createPageDir (s : BlockState) : Option (Option Nat × BlockState) := do
  let (status, pgdirV, s) ← s.kmalloc ptSize 0 ptSize 0
  if status ≠ .kSuccess then return (none, s)
  else
    let s := { s with alloc := s.alloc.memset pgdirV ptSize }
    return (some (virtToPhys pgdirV), s.copyKernelHalf pgdirV)

/-- A frame for a page, as `start_process` and `do_page_fault` map it; nothing is mapped if there
is none. -/
def mapFrame (s : BlockState) (pageDir vaddr : Nat) : Option (Option Nat × BlockState) := do
  let (status, addr, s) ← s.allocPhysicalPage 1
  match status, addr with
  | .kSuccess, some paddr => do
      let s ← s.pageMap pageDir paddr vaddr
      return (some paddr, s)
  | _, _ => return (none, s)

/-- What `kern_free_page` does to the frame and the mapping. -/
def unmapFrame (s : BlockState) (pageDir inAddr : Nat) : Option BlockState := do
  let paddr := s.alloc.memory.toPhysicalAddress pageDir inAddr
  let s ← s.freePhysicalPage paddr 1
  s.pageUnmap pageDir inAddr

/-- The body of the loop of `free_pdt`. -/
def freePde (vPdt : Nat) (s : BlockState) (i : Nat) : Option BlockState :=
  if s.load (vPdt + 8 * i) &&& pgP ≠ 0 then
    s.freePhysicalPage (s.load (vPdt + 8 * i) &&& entryMask) 1
  else some s

/-- `free_pdt`. -/
def freePdt (s : BlockState) (pdt : Nat) : Option BlockState := do
  let vPdt := physToVirt pdt
  let s ← (List.range 512).foldlM (freePde vPdt) s
  s.kfree vPdt

/-- The body of the loop of `free_pdpt`. -/
def freePdpte (vPdpt : Nat) (s : BlockState) (i : Nat) : Option BlockState :=
  if s.load (vPdpt + 8 * i) &&& pgP ≠ 0 then s.freePdt (s.load (vPdpt + 8 * i) &&& entryMask)
  else some s

/-- `free_pdpt`. -/
def freePdpt (s : BlockState) (pdpt : Nat) : Option BlockState := do
  let vPdpt := physToVirt pdpt
  let s ← (List.range 512).foldlM (freePdpte vPdpt) s
  s.kfree vPdpt

/-- The body of the loop of `free_page_table`. -/
def freePml4e (vPml4t : Nat) (s : BlockState) (i : Nat) : Option BlockState :=
  if s.load (vPml4t + 8 * i) &&& pgP ≠ 0 then s.freePdpt (s.load (vPml4t + 8 * i) &&& entryMask)
  else some s

/-- `free_page_table`: the tables of the user half. -/
def freePageTable (s : BlockState) (pml4t : Nat) : Option BlockState := do
  let vPml4t := physToVirt pml4t
  let s ← (List.range 256).foldlM (freePml4e vPml4t) s
  s.kfree vPml4t

end BlockState

/-! ## Loads and stores -/

namespace Allocator

variable {s t : Allocator} {p q word : Nat}

theorem physToVirt_of_lt (hp : p < directMapEnd) : physToVirt p = p + kernelVmaBase := by
  unfold directMapEnd wordSize kernelVmaBase at hp
  exact add64_of_lt (by unfold wordSize kernelVmaBase; omega)

theorem loadWord_congr {a : Nat} (h : ∀ i < 8, t.bytes (a + i) = s.bytes (a + i)) :
    t.loadWord a = s.loadWord a := by
  unfold loadWord
  congr 1
  exact List.map_congr_left fun i hi => h i (List.mem_range.mp hi)

theorem loadWord_storeWord_self {a : Nat} (hword : word < 2 ^ 64) :
    (s.storeWord a word).loadWord a = word := by
  have hbytes : ((List.range 8).map fun i => (s.storeWord a word).bytes (a + i)) =
      toLE 8 word := by
    refine List.ext_getElem (by simp) fun i hi _ => ?_
    have hi : i < 8 := by simpa using hi
    rw [List.getElem_map, List.getElem_range]
    change (if a ≤ a + i ∧ a + i < a + 8 then (toLE 8 word).getD (a + i - a) 0 else _) = _
    rw [if_pos ⟨Nat.le_add_right _ _, Nat.add_lt_add_left hi a⟩, Nat.add_sub_cancel_left,
      List.getD_eq_getElem?_getD, List.getElem?_eq_getElem (by simpa using hi), Option.getD_some]
  rw [loadWord, hbytes, ofLE_toLE hword]

theorem bytes_storeWord_of_out {a x : Nat} (hx : ¬ (a ≤ x ∧ x < a + 8)) :
    (s.storeWord a word).bytes x = s.bytes x := if_neg hx

/-- A store to an aligned word is a write to the physical memory behind it. -/
theorem memory_storeWord (hp : p % 8 = 0) (hlt : p < directMapEnd) (hword : word < 2 ^ 64) :
    (s.storeWord (physToVirt p) word).memory = s.memory.write p word := by
  funext q
  unfold Memory.write
  by_cases hq : q = p
  · rw [hq, Function.update_self, memory, if_pos ⟨hp, hlt⟩, loadWord_storeWord_self hword]
  · rw [Function.update_of_ne hq]
    unfold memory
    split
    · next h =>
        refine loadWord_congr fun i hi => bytes_storeWord_of_out ?_
        rw [physToVirt_of_lt h.2, physToVirt_of_lt hlt]
        omega
    · rfl

theorem loadWord_physToVirt (hp : p % 8 = 0) (hlt : p < directMapEnd) :
    s.loadWord (physToVirt p) = s.memory p := by
  rw [memory, if_pos ⟨hp, hlt⟩]

theorem loadWord_zero {a : Nat} (h : ∀ i < 8, s.bytes (a + i) = 0) : s.loadWord a = 0 := by
  have hbytes : ((List.range 8).map fun i => s.bytes (a + i)) = (List.range 8).map fun _ => 0 :=
    List.map_congr_left fun i hi => h i (List.mem_range.mp hi)
  rw [loadWord, hbytes]
  rfl

theorem memory_congr (h : ∀ i < 8, t.bytes (physToVirt p + i) = s.bytes (physToVirt p + i)) :
    t.memory p = s.memory p := by
  unfold memory
  rw [loadWord_congr h]

theorem bytes_memset (s : Allocator) (start size x : Nat) :
    (s.memset start size).bytes x = if start ≤ x ∧ x < start + size then 0 else s.bytes x := rfl

end Allocator

end ClayFigure
