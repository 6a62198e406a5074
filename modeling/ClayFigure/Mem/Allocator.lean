/-
# The kernel's block allocator

`kmalloc` and `kfree` of `mem/allocator.c`. Thirteen groups hand out blocks of one size
each; a page of a group has its `mem_cache_t` at the start and blocks behind it, and the
free blocks are members of the group's list. The list is the one of `lib/list.c`, its
members named by the addresses of their blocks.

Pages are reached through the direct map at `KERNEL_VMA_BASE`. That the frames in use lie in it is
assumed: the boot loader maps 4 GiB, and nothing keeps the frame allocator below that.
-/

import ClayFigure.Lib.List
import ClayFigure.Mem.Frame
import ClayFigure.Mem.PageTable

namespace ClayFigure

open ClayFigure.Math

/-- `MIN_ALLOCATE_MEMORY_SIZE`. -/
abbrev minAllocateMemorySize : Nat := 64

/-- `MAX_ALLOCATE_MEMORY_SIZE`. -/
abbrev maxAllocateMemorySize : Nat := 262144

/-- `NUMBER_OF_MEMORY_BLOCK_TYPES`. -/
abbrev numberOfMemoryBlockTypes : Nat := 13

/-- An index into `mem_groups`. -/
abbrev Group : Type := Fin numberOfMemoryBlockTypes

/-- The `block_size` that `mem_allocator_init` gives a group. -/
def blockSize (g : Group) : Nat := minAllocateMemorySize <<< (g : Nat)

/-- `mem_cache_t`. -/
structure MemCache where
  group : Group
  numberOfBlocks : Nat
  cnt : Nat
  deriving DecidableEq

/-- The groups, what lies at the starts of pages and blocks, the frame allocator and the
`preempt_count` of the running task. A cache of which nothing but zeros is left is `none`. -/
structure Allocator where
  totalFree : Group → Nat
  lock : Group → Nat
  lists : Heap Group Nat
  caches : Nat → Option MemCache
  magic : Nat → Nat
  bytes : Nat → Byte
  mem : Mem
  preemptCount : Nat

/-- `PHYS_TO_VIRT`, for frames in the direct map. -/
def physToVirt (addr : Nat) : Nat := add64 addr kernelVmaBase

/-- `VIRT_TO_PHYS`. -/
def virtToPhys (addr : Nat) : Nat := sub64 addr kernelVmaBase

namespace Allocator

/-! ## The code -/

/-- `mem_allocator_init`. -/
def memAllocatorInit (s : Allocator) : Allocator :=
  { s with
    totalFree := fun _ => 0
    lock := fun _ => 1
    lists := (List.finRange numberOfMemoryBlockTypes).foldl (fun k g => k.initList g) s.lists }

/-- `spinlock_lock`; `none` is waiting for ever. -/
def spinlockLock (s : Allocator) (g : Group) : Option Allocator :=
  if s.lock g = 1 then
    some { s with
      lock := Function.update s.lock g 0
      preemptCount := add64 s.preemptCount 1 }
  else none

/-- `spinlock_unlock`. -/
def spinlockUnlock (s : Allocator) (g : Group) : Allocator :=
  { s with
    lock := Function.update s.lock g 1
    preemptCount := sub64 s.preemptCount 1 }

/-- The links of the nodes outside of a cleared region. -/
def clearLinks (start size : Nat) (link : Node Group Nat → Option (Node Group Nat)) :
    Node Group Nat → Option (Node Group Nat)
  | .elem a => if start ≤ a ∧ a < start + size then none else link (.elem a)
  | n => link n

/-- `memset(start, 0, size)`. -/
def memset (s : Allocator) (start size : Nat) : Allocator :=
  { s with
    lists := ⟨clearLinks start size s.lists.prev, clearLinks start size s.lists.next⟩
    caches := fun a => if start ≤ a ∧ a < start + size then none else s.caches a
    magic := fun a => if start ≤ a ∧ a < start + size then 0 else s.magic a
    bytes := fun a => if start ≤ a ∧ a < start + size then 0 else s.bytes a }

/-- `cache2block`. -/
def cache2block (c : Nat) (g : Group) (idx : Nat) : Nat := c + blockSize g + idx * blockSize g

/-- `block2cache`. -/
def block2cache (b : Nat) : Nat := b &&& pageMask

/-- `block_index`. -/
def blockIndex (c : Nat) (g : Group) (b : Nat) : Nat := sub64 b (c + blockSize g) / blockSize g

/-- The two tests of `kmalloc_find_block` on a block. -/
def suitable (size alignment boundary addr : Nat) : Bool :=
  addr &&& sub64 alignment 1 = 0 ∧
    (boundary = 0 ∨ addr / boundary = sub64 (add64 addr size) 1 / boundary)

/-- The loop of `kmalloc_find_block` from `node` on, for at most `fuel` nodes. The inner
`none` is `NULL`, the outer one a failed `ASSERT`. -/
def findFrom (s : Allocator) (g : Group) (size alignment boundary : Nat) :
    Nat → Node Group Nat → Option (Option Nat)
  | 0, _ => none
  | fuel + 1, node =>
      if node = .tail g then some none
      else
        match node with
        | .elem b => do
            let c ← s.caches (block2cache b)
            let next ← s.lists.next node
            if s.magic b ≠ blockIndex (block2cache b) c.group b + c.numberOfBlocks then none
            else if s.lists.prev next ≠ some node then none
            else if suitable size alignment boundary b then some (some b)
            else s.findFrom g size alignment boundary fuel next
        | _ => none

/-- `kmalloc_find_block`. No list has more nodes than there are addresses. -/
def kmallocFindBlock (s : Allocator) (g : Group) (size alignment boundary : Nat) :
    Option (Option Nat × Allocator) := do
  let node ← s.lists.next (.head g)
  let next ← s.lists.next node
  if s.lists.prev next ≠ some node then none
  else
    let found ←
      if alignment ≤ size ∧ boundary = 0 then
        match node with
        | .elem b => some (some b)
        | _ => none
      else s.findFrom g size alignment boundary wordSize node
    match found with
    | none => some (none, s)
    | some b => (s.lists.listRemove (.elem b)).map fun lists => (some b, { s with lists })

/-- The body of the loop that makes the blocks of a new page. -/
def addBlock (c : Nat) (s : Allocator) (idx : Nat) : Option Allocator := do
  let cache ← s.caches c
  let b := cache2block c cache.group idx
  let lists ← s.lists.listAppend cache.group (.elem b)
  return { s with
    lists, magic := Function.update s.magic b (idx + cache.numberOfBlocks) }

/-- The header of a new page, all of whose blocks are free. -/
def initCache (s : Allocator) (g : Group) (c : Nat) : Allocator :=
  let s := s.memset c pgSize
  let numberOfBlocks := pgSize / blockSize g - 1
  { s with
    caches := Function.update s.caches c (some ⟨g, numberOfBlocks, numberOfBlocks⟩)
    totalFree := Function.update s.totalFree g ((s.totalFree g + numberOfBlocks) % 2 ^ 32) }

/-- What `kmalloc` does when the list of the group is empty. -/
def refill (s : Allocator) (g : Group) : Option (Status × Allocator) :=
  match s.mem.allocPhysicalPage 1 with
  | none => none
  | some r =>
      let s := { s with mem := r.mem }
      match r.status, r.addr with
      | .kSuccess, some cachePaddr =>
          let c := physToVirt cachePaddr
          let numberOfBlocks := pgSize / blockSize g - 1
          ((List.range numberOfBlocks).foldlM (addBlock c) (s.initCache g c)).map fun s =>
            (.kSuccess, s)
      | status, _ => some (status, s)

/-- What `kmalloc` does with the block it found. -/
def takeBlock (s : Allocator) (g : Group) (b : Nat) : Option Allocator := do
  let s := s.memset b (blockSize g)
  let c := block2cache b
  let cache ← s.caches c
  return { s with
    caches := Function.update s.caches c (some { cache with cnt := sub64 cache.cnt 1 })
    totalFree := Function.update s.totalFree cache.group
      ((s.totalFree cache.group + 2 ^ 32 - 1) % 2 ^ 32) }

/-- The first group whose blocks are large enough. -/
def groupOf (size : Nat) : Option Group :=
  (List.finRange numberOfMemoryBlockTypes).find? fun g => size ≤ blockSize g

/-- `kmalloc`: the status, the value of `*addr` and the allocator; `none` is a failed
`ASSERT` or waiting for ever. -/
def kmalloc (s : Allocator) (size alignment boundary addr : Nat) :
    Option (Status × Nat × Allocator) :=
  let alignment := if alignment < size then size else alignment
  if maxAllocateMemorySize < size then some (.kError, addr, s)
  else do
    let g ← groupOf size
    let s ← s.spinlockLock g
    let (status, s) ← if s.lists.listEmpty g then s.refill g else some (.kSuccess, s)
    if status ≠ .kSuccess then some (status, addr, s.spinlockUnlock g)
    else
      let (b, s) ← s.kmallocFindBlock g size alignment boundary
      match b with
      | none => some (.kNotFound, addr, s)
      | some b => (s.takeBlock g b).map fun s => (.kSuccess, b, s.spinlockUnlock g)

/-- The body of the loop that unlinks the blocks of a page. -/
def unlinkBlock (c : Nat) (g : Group) (numberOfBlocks : Nat) (s : Allocator) (idx : Nat) :
    Option Allocator :=
  let b := cache2block c g idx
  if s.magic b ≠ idx + numberOfBlocks then none
  else (s.lists.listRemove (.elem b)).map fun lists => { s with lists }

/-- A page none of whose blocks is in use goes back to the frame allocator. -/
def releasePage (s : Allocator) (g : Group) (c numberOfBlocks : Nat) : Option Allocator := do
  let s ← (List.range numberOfBlocks).foldlM (unlinkBlock c g numberOfBlocks) s
  let mem ← s.mem.freePhysicalPage (virtToPhys c) 1
  return { s with
    totalFree := Function.update s.totalFree g
      ((s.totalFree g + 2 ^ 32 - numberOfBlocks) % 2 ^ 32)
    mem }

/-- `kfree`; `none` is a failed `ASSERT` or waiting for ever. -/
def kfree (s : Allocator) (addr : Nat) : Option Allocator :=
  if addr = 0 then some s
  else do
    let c := block2cache addr
    let cache ← s.caches c
    let g := cache.group
    let s := { s with
      magic := Function.update s.magic addr (blockIndex c g addr + cache.numberOfBlocks) }
    if addr &&& (blockSize g - 1) ≠ 0 then none
    else
      let s ← s.spinlockLock g
      let lists ← s.lists.listAppend g (.elem addr)
      let cnt := add64 cache.cnt 1
      let s := { s with
        lists
        totalFree := Function.update s.totalFree g ((s.totalFree g + 1) % 2 ^ 32)
        caches := Function.update s.caches c (some { cache with cnt }) }
      let s ← if cnt = cache.numberOfBlocks then s.releasePage g c cache.numberOfBlocks else some s
      return s.spinlockUnlock g

theorem caches_memset (s : Allocator) (start size a : Nat) :
    (s.memset start size).caches a =
      if start ≤ a ∧ a < start + size then none else s.caches a := rfl

theorem magic_memset (s : Allocator) (start size a : Nat) :
    (s.memset start size).magic a =
      if start ≤ a ∧ a < start + size then 0 else s.magic a := rfl

theorem caches_initCache (s : Allocator) (g : Group) (c a : Nat) :
    (s.initCache g c).caches a =
      if a = c then some ⟨g, pgSize / blockSize g - 1, pgSize / blockSize g - 1⟩
      else (s.memset c pgSize).caches a :=
  Function.update_apply ..

theorem magic_initCache (s : Allocator) (g : Group) (c : Nat) :
    (s.initCache g c).magic = (s.memset c pgSize).magic := rfl

/-! ## Addresses of blocks -/

/-- The blocks of a page. -/
def numBlocks (g : Group) : Nat := pgSize / blockSize g - 1

/-- The address of a frame in the direct map. -/
def pageOf (f : Nat) : Nat := kernelVmaBase + f * pgSize

theorem blockSize_pos (g : Group) : 0 < blockSize g := by
  revert g
  decide

/-- The header takes the place of one block. -/
theorem numBlocks_mul (g : Group) : numBlocks g * blockSize g + blockSize g = pgSize := by
  revert g
  decide

theorem numBlocks_pos (g : Group) : 0 < numBlocks g ∧ numBlocks g < 32768 := by
  revert g
  decide

theorem physToVirt_frame {f : Nat} (hf : f < 16384) : physToVirt (f * pgSize) = pageOf f := by
  rw [physToVirt, pageOf, add64_of_lt, Nat.add_comm]
  unfold wordSize pgSize kernelVmaBase
  omega

/-- A block lies in its page, behind the header. -/
theorem cache2block_bounds {g : Group} {idx : Nat} (hidx : idx < numBlocks g) (c : Nat) :
    c + blockSize g ≤ cache2block c g idx ∧
      cache2block c g idx + blockSize g ≤ c + pgSize := by
  have hmul := Nat.mul_le_mul_right (blockSize g) (Nat.succ_le_of_lt hidx)
  rw [Nat.succ_mul] at hmul
  have hpage := numBlocks_mul g
  unfold cache2block
  omega

theorem pageOf_lt {f : Nat} (hf : f < 16384) : pageOf f + pgSize < wordSize := by
  unfold pageOf wordSize pgSize kernelVmaBase
  omega

/-- The header of a page is found from any address in the page. -/
theorem block2cache_of_mem {f b : Nat} (hf : f < 16384) (hlo : pageOf f ≤ b)
    (hhi : b < pageOf f + pgSize) : block2cache b = pageOf f := by
  have hlt := pageOf_lt hf
  rw [block2cache, and_pageMask (hhi.trans (by unfold wordSize at hlt; omega))]
  unfold pageOf kernelVmaBase pgSize at *
  omega

theorem block2cache_cache2block {f idx : Nat} {g : Group} (hf : f < 16384)
    (hidx : idx < numBlocks g) : block2cache (cache2block (pageOf f) g idx) = pageOf f := by
  obtain ⟨hlo, hhi⟩ := cache2block_bounds hidx (pageOf f)
  have hpos := blockSize_pos g
  exact block2cache_of_mem hf (by omega) (by omega)

theorem blockIndex_cache2block {f idx : Nat} {g : Group} (hf : f < 16384)
    (hidx : idx < numBlocks g) :
    blockIndex (pageOf f) g (cache2block (pageOf f) g idx) = idx := by
  obtain ⟨hlo, hhi⟩ := cache2block_bounds hidx (pageOf f)
  have hlt := pageOf_lt hf
  have hpos := blockSize_pos g
  rw [blockIndex, sub64_of_le hlo (by omega), cache2block, Nat.add_sub_cancel_left,
    Nat.mul_div_cancel _ hpos]

theorem cache2block_injective {c : Nat} {g : Group} {i j : Nat}
    (heq : cache2block c g i = cache2block c g j) : i = j := by
  unfold cache2block at heq
  exact Nat.eq_of_mul_eq_mul_right (blockSize_pos g) (by omega)

/-- An address `kmalloc` can give out: a block behind the header of a page. -/
def IsBlock (b : Nat) : Prop :=
  ∃ f idx : Nat, ∃ g : Group, f < 16384 ∧ idx < numBlocks g ∧ b = cache2block (pageOf f) g idx

theorem IsBlock.bounds {b : Nat} (h : IsBlock b) : kernelVmaBase < b ∧ b < wordSize := by
  obtain ⟨f, idx, g, hf, hidx, rfl⟩ := h
  obtain ⟨hlo, hhi⟩ := cache2block_bounds hidx (pageOf f)
  have hlt := pageOf_lt hf
  have hpos := blockSize_pos g
  have hbase : kernelVmaBase ≤ pageOf f := Nat.le_add_right _ _
  exact ⟨by omega, by omega⟩

theorem IsBlock.ne_zero {b : Nat} (h : IsBlock b) : b ≠ 0 :=
  (lt_of_le_of_lt (Nat.zero_le _) h.bounds.1).ne'

/-- The physical address of a block is not `NULL`, and leads back to the block. -/
theorem IsBlock.directMap {b : Nat} (h : IsBlock b) :
    virtToPhys b ≠ 0 ∧ physToVirt (virtToPhys b) = b := by
  obtain ⟨hlo, hhi⟩ := h.bounds
  rw [virtToPhys, sub64_of_le hlo.le hhi]
  refine ⟨by omega, ?_⟩
  rw [physToVirt, add64_of_lt (by omega), Nat.sub_add_cancel hlo.le]

/-- The sizes `kmalloc` serves are those of the groups. -/
theorem groupOf_eq_some {size : Nat} (hsize : size ≤ maxAllocateMemorySize) :
    ∃ g, groupOf size = some g ∧ size ≤ blockSize g := by
  unfold groupOf
  cases hfind : (List.finRange numberOfMemoryBlockTypes).find? fun g => size ≤ blockSize g with
  | none =>
      have hlast := List.find?_eq_none.mp hfind 12 (List.mem_finRange 12)
      rw [show blockSize 12 = maxAllocateMemorySize by decide] at hlast
      exact absurd hsize (by simpa using hlast)
  | some g => exact ⟨g, rfl, by simpa using List.find?_some hfind⟩

end Allocator

end ClayFigure
