/-
# Tables of virtual address ranges

`mem/vmm.c`: an array of blocks with a count of the blocks in use. Adding a range
merges it with its neighbours where they touch, removing one cuts the block that
contains it, and both shift the array in place. Every loop is the loop of the
source; the first lemmas say what the loops do to the cells.
-/

import Mathlib.Logic.Function.Basic
import Mathlib.Data.List.Basic
import ClayFigure.Kernel.Global
import ClayFigure.Math.Ranges
import ClayFigure.Math.Transition

namespace ClayFigure

open ClayFigure.Math

/-- `vmm_block_t`. -/
structure VmmBlock where
  start : Nat
  size : Nat
  deriving DecidableEq, Repr

/-- `vmm_struct_t`; the array is the memory `blocks` points to. -/
structure Vmm where
  blocks : Nat → VmmBlock
  totalBlocks : Nat
  usingBlocks : Nat

namespace Vmm

/-! ## The code -/

/-- `vmm_struct_init`. -/
def vmmStructInit (blocks : Nat → VmmBlock) (totalBlocks : Nat) : Vmm := ⟨blocks, totalBlocks, 0⟩

/-- The loop of `move_forward`, with `n` cells to go. -/
def moveForwardFrom (blocks : Nat → VmmBlock) : Nat → Nat → (Nat → VmmBlock)
  | 0, _ => blocks
  | n + 1, i => moveForwardFrom (Function.update blocks i (blocks (i + 1))) n (i + 1)

/-- `move_forward`. -/
def moveForward (vmm : Vmm) (index : Nat) : Vmm :=
  { vmm with blocks := moveForwardFrom vmm.blocks (vmm.usingBlocks - index) index }

/-- The loop of `move_backward` from `i` down. -/
def moveBackwardFrom (index : Nat) (blocks : Nat → VmmBlock) : Nat → (Nat → VmmBlock)
  | 0 => blocks
  | i + 1 =>
      if index < i + 1 then
        moveBackwardFrom index (Function.update blocks (i + 1) (blocks i)) i
      else blocks

/-- `move_backward`. -/
def moveBackward (vmm : Vmm) (index : Nat) : Vmm :=
  { vmm with blocks := moveBackwardFrom index vmm.blocks vmm.usingBlocks }

def setBlock (vmm : Vmm) (i : Nat) (block : VmmBlock) : Vmm :=
  { vmm with blocks := Function.update vmm.blocks i block }

/-- A loop over the blocks in use that breaks at the first one that meets `p`; the value
is the loop variable afterwards. -/
def searchFrom (p : VmmBlock → Bool) (blocks : Nat → VmmBlock) : Nat → Nat → Nat
  | 0, i => i
  | n + 1, i => if p (blocks i) then i else searchFrom p blocks n (i + 1)

def search (vmm : Vmm) (p : VmmBlock → Bool) : Nat := searchFrom p vmm.blocks vmm.usingBlocks 0

/-- `vmm_add_range`. -/
def vmmAddRange (vmm : Vmm) (start size : Nat) : Status × Vmm :=
  let i := vmm.search fun block => start < block.start
  let before := vmm.blocks (i - 1)
  let behind := vmm.blocks i
  if 0 < i ∧ add64 before.start before.size = start then
    let vmm := vmm.setBlock (i - 1) { before with size := add64 before.size size }
    if i = vmm.usingBlocks then (.kSuccess, vmm)
    else if add64 start size = behind.start then
      let vmm := vmm.setBlock (i - 1)
        { before with size := add64 (add64 before.size size) behind.size }
      (.kSuccess, { vmm with usingBlocks := vmm.usingBlocks - 1 }.moveForward i)
    else (.kSuccess, vmm)
  else if i < vmm.usingBlocks ∧ add64 start size = behind.start then
    (.kSuccess, vmm.setBlock i ⟨start, add64 behind.size size⟩)
  else if vmm.usingBlocks < vmm.totalBlocks then
    let vmm := vmm.moveBackward i
    (.kSuccess, { vmm with usingBlocks := vmm.usingBlocks + 1 }.setBlock i ⟨start, size⟩)
  else (.kError, vmm)

/-- `vmm_remove_range`. -/
def vmmRemoveRange (vmm : Vmm) (start size : Nat) : Status × Vmm :=
  let stop := add64 start size
  let i := vmm.search fun block =>
    block.start ≤ start ∧ stop ≤ add64 block.start block.size
  let block := vmm.blocks i
  let blockEnd := add64 block.start block.size
  if vmm.usingBlocks ≤ i then (.kNotFound, vmm)
  else if start = block.start ∧ stop = blockEnd then
    (.kSuccess, { vmm with usingBlocks := vmm.usingBlocks - 1 }.moveForward i)
  else if block.start < start ∧ stop < blockEnd then
    if vmm.totalBlocks ≤ vmm.usingBlocks then (.kOutOfResource, vmm)
    else
      let vmm := vmm.setBlock i { block with size := sub64 start block.start }
      let vmm := (vmm.moveBackward (i + 1)).setBlock (i + 1) ⟨stop, sub64 blockEnd stop⟩
      (.kSuccess, { vmm with usingBlocks := vmm.usingBlocks + 1 })
  else if start = block.start then
    (.kSuccess, vmm.setBlock i ⟨stop, sub64 blockEnd stop⟩)
  else if stop = blockEnd then
    (.kSuccess, vmm.setBlock i { block with size := sub64 start block.start })
  else (.kError, vmm)

/-- `vmm_alloc`: the status, the value of `*vaddr` and the table. -/
def vmmAlloc (vmm : Vmm) (size vaddr : Nat) : Status × Nat × Vmm :=
  let i := vmm.search fun block => size ≤ block.size
  if i < vmm.usingBlocks then
    let start := (vmm.blocks i).start
    (.kSuccess, start, (vmm.vmmRemoveRange start size).2)
  else (.kOutOfResource, vaddr, vmm)

/-- The blocks in use. -/
def list (vmm : Vmm) : List VmmBlock := (List.range vmm.usingBlocks).map vmm.blocks

@[simp]
theorem usingBlocks_setBlock (vmm : Vmm) (i : Nat) (block : VmmBlock) :
    (vmm.setBlock i block).usingBlocks = vmm.usingBlocks := rfl

@[simp]
theorem setBlock_setBlock (vmm : Vmm) (i : Nat) (block block' : VmmBlock) :
    (vmm.setBlock i block).setBlock i block' = vmm.setBlock i block' := by
  simp [setBlock]

/-! ## The loops -/

theorem moveForwardFrom_apply (blocks : Nat → VmmBlock) (n i j : Nat) :
    moveForwardFrom blocks n i j = if i ≤ j ∧ j < i + n then blocks (j + 1) else blocks j := by
  induction n generalizing blocks i with
  | zero => simp [moveForwardFrom]
  | succ n ih =>
      rw [moveForwardFrom, ih]
      grind

theorem moveBackwardFrom_apply (index : Nat) (blocks : Nat → VmmBlock) (i j : Nat) :
    moveBackwardFrom index blocks i j =
      if index < j ∧ j ≤ i then blocks (j - 1) else blocks j := by
  induction i generalizing blocks with
  | zero => rw [moveBackwardFrom, if_neg (by omega)]
  | succ i ih =>
      rw [moveBackwardFrom]
      split
      · rw [ih]
        grind
      · grind

/-- The loop ends at the first block in use that meets `p`, or behind the last one. -/
theorem searchFrom_spec (p : VmmBlock → Bool) (blocks : Nat → VmmBlock) (n i : Nat) :
    i ≤ searchFrom p blocks n i ∧ searchFrom p blocks n i ≤ i + n ∧
      (∀ j, i ≤ j → j < searchFrom p blocks n i → p (blocks j) = false) ∧
      (searchFrom p blocks n i < i + n → p (blocks (searchFrom p blocks n i)) = true) := by
  induction n generalizing i with
  | zero =>
      refine ⟨le_refl i, le_refl i, fun j hle hlt => ?_, fun hlt => ?_⟩
      · exact absurd hle (not_le_of_gt hlt)
      · exact absurd hlt (lt_irrefl i)
  | succ n ih =>
      obtain ⟨hle, hub, hno, hyes⟩ := ih (i + 1)
      rw [searchFrom]
      split
      · next hp => exact ⟨le_refl i, by omega, fun j hle hlt => by omega, fun _ => hp⟩
      · next hp =>
          refine ⟨by omega, by omega, fun j hij hlt => ?_, fun hlt => hyes (by omega)⟩
          by_cases hj : j = i
          · rw [hj]
            exact Bool.eq_false_iff.mpr hp
          · exact hno j (by omega) hlt

theorem getElem?_list (vmm : Vmm) (i : Nat) :
    vmm.list[i]? = if i < vmm.usingBlocks then some (vmm.blocks i) else none := by
  simp only [list, List.getElem?_map]
  split <;> simp_all

@[simp]
theorem length_list (vmm : Vmm) : vmm.list.length = vmm.usingBlocks := by simp [list]

theorem drop_list {vmm : Vmm} {i : Nat} (hi : i < vmm.usingBlocks) :
    vmm.list.drop i = vmm.blocks i :: vmm.list.drop (i + 1) := by
  rw [List.drop_eq_getElem_cons (by simpa using hi)]
  simp [list]

theorem take_list {vmm : Vmm} {i : Nat} (hi : i < vmm.usingBlocks) :
    vmm.list.take (i + 1) = vmm.list.take i ++ [vmm.blocks i] := by
  rw [List.take_add_one, getElem?_list, if_pos hi]
  rfl

/-- The cells from `i` on as a list. -/
theorem list_split {vmm : Vmm} {i : Nat} (hi : i < vmm.usingBlocks) :
    vmm.list = vmm.list.take i ++ vmm.blocks i :: vmm.list.drop (i + 1) := by
  rw [← drop_list hi, List.take_append_drop]

theorem mem_list {vmm : Vmm} {i : Nat} (hi : i < vmm.usingBlocks) : vmm.blocks i ∈ vmm.list := by
  rw [list_split hi]
  simp

/-- The search splits the list at the first block that meets `p`. -/
theorem search_spec (vmm : Vmm) (p : VmmBlock → Bool) :
    vmm.search p ≤ vmm.usingBlocks ∧ (∀ b ∈ vmm.list.take (vmm.search p), p b = false) ∧
      (vmm.search p < vmm.usingBlocks → p (vmm.blocks (vmm.search p)) = true) := by
  obtain ⟨-, hub, hno, hyes⟩ := searchFrom_spec p vmm.blocks vmm.usingBlocks 0
  rw [Nat.zero_add] at hub hyes
  refine ⟨hub, fun b hb => ?_, hyes⟩
  obtain ⟨j, hj, rfl⟩ := List.mem_take_iff_getElem.mp hb
  have hlt : j < vmm.search p := by
    have := hj
    omega
  simpa [list] using hno j (Nat.zero_le j) hlt

/-- `move_forward` after the count went down deletes block `i`. -/
theorem list_moveForward (vmm : Vmm) {i : Nat} (hi : i < vmm.usingBlocks) :
    ({ vmm with usingBlocks := vmm.usingBlocks - 1 }.moveForward i).list =
      vmm.list.take i ++ vmm.list.drop (i + 1) := by
  apply List.ext_getElem?
  intro j
  rw [getElem?_list, List.getElem?_append, List.getElem?_take, List.getElem?_drop]
  simp only [moveForward, moveForwardFrom_apply, getElem?_list, List.length_take, length_list]
  grind

/-- `move_backward`, a new block at `i` and the count one up insert the block. -/
theorem list_moveBackward (vmm : Vmm) {i : Nat} (hi : i ≤ vmm.usingBlocks) (block : VmmBlock) :
    ({ vmm.moveBackward i with usingBlocks := vmm.usingBlocks + 1 }.setBlock i block).list =
      vmm.list.take i ++ block :: vmm.list.drop i := by
  apply List.ext_getElem?
  intro j
  rw [getElem?_list, List.getElem?_append, List.getElem?_cons, List.getElem?_take,
    List.getElem?_drop]
  simp only [moveBackward, setBlock, Function.update_apply, moveBackwardFrom_apply, getElem?_list,
    List.length_take, length_list]
  grind

theorem list_setBlock {vmm : Vmm} {i : Nat} (hi : i < vmm.usingBlocks) (block : VmmBlock) :
    (vmm.setBlock i block).list = vmm.list.take i ++ block :: vmm.list.drop (i + 1) := by
  apply List.ext_getElem?
  intro j
  rw [getElem?_list, List.getElem?_append, List.getElem?_cons, List.getElem?_take,
    List.getElem?_drop]
  simp only [setBlock, getElem?_list, List.length_take, length_list]
  grind

end Vmm

end ClayFigure
