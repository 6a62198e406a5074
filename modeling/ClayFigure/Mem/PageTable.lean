/-
# Page tables

The walks of `mem/page.c` over the four-level tables with 2 MiB pages: translating an
address, mapping a page with the tables this needs, and taking a mapping away. Memory is
read and written in 64-bit words at physical addresses; the direct map at
`KERNEL_VMA_BASE` only shifts them. The tables of a directory are a tree as in
`Math.TableTree`, whose rules say what a written entry changes.
-/

import Mathlib.Logic.Function.Basic
import ClayFigure.Kernel.Global
import ClayFigure.Math.TableTree

namespace ClayFigure

open ClayFigure.Math

/-- Physical memory: the 64-bit word at each address. -/
abbrev Memory : Type := Nat → Nat

/-- `GET_FIELD`. -/
def getField (x shift mask : Nat) : Nat := (x >>> shift) &&& mask

/-- `GET_FIELD(vaddr, ADDR_PML4T_INDEX)`. -/
def addrPml4tIndex (vaddr : Nat) : Nat := getField vaddr 39 0x1ff

/-- `GET_FIELD(vaddr, ADDR_PDPT_INDEX)`. -/
def addrPdptIndex (vaddr : Nat) : Nat := getField vaddr 30 0x1ff

/-- `GET_FIELD(vaddr, ADDR_PDT_INDEX)`. -/
def addrPdtIndex (vaddr : Nat) : Nat := getField vaddr 21 0x1ff

/-- `GET_FIELD(vaddr, ADDR_OFFSET)`. -/
def addrOffset (vaddr : Nat) : Nat := getField vaddr 0 0x1fffff

/-- `PG_P`. -/
abbrev pgP : Nat := 0x1

/-- `PG_US_U | PG_RW_W | PG_P`, the flags of an entry that leads to a table. -/
abbrev pgTableFlags : Nat := 0x7

/-- `PG_DEFAULT_FLAGS`. -/
abbrev pgDefaultFlags : Nat := 0x87

/-- `~0xfff` as a 64-bit word. -/
abbrev entryMask : Nat := 0xfffffffffffff000

/-- `~(PG_SIZE - 1)` as a 64-bit word. -/
abbrev pageMask : Nat := 0xffffffffffe00000

/-- `KERNEL_PAGE_DIR_TABLE_POS`. -/
abbrev kernelPageDirTablePos : Nat := 0x510000

namespace Memory

/-! ## The code -/

/-- `to_physical_address`; 0 is `NULL`. -/
def toPhysicalAddress (mem : Memory) (pml4t vaddr : Nat) : Nat :=
  let pml4e := pml4t + 8 * addrPml4tIndex vaddr
  if mem pml4e &&& pgP = 0 then 0
  else
    let pdpte := (mem pml4e &&& entryMask) + 8 * addrPdptIndex vaddr
    if mem pdpte &&& pgP = 0 then 0
    else
      let pde := (mem pdpte &&& entryMask) + 8 * addrPdtIndex vaddr
      if mem pde &&& pgP = 0 then 0
      else add64 (mem pde &&& entryMask) (addrOffset vaddr)

/-- `memset(table, 0, PT_SIZE)`. -/
def zeroTable (mem : Memory) (table : Nat) : Memory := fun a =>
  if table ≤ a ∧ a < table + ptSize then 0 else mem a

def write (mem : Memory) (a word : Nat) : Memory := Function.update mem a word

/-- What `page_map` does twice: an entry that is not present is made to lead to a new
table. `table` is the physical address of the block `kmalloc` returns if it is called;
`none` stands for its failure, which the `ASSERT` does not survive. -/
def ensureTable (mem : Memory) (entry : Nat) (table : Option Nat) : Option Memory :=
  if mem entry &&& pgP = 0 then
    table.map fun table => (mem.zeroTable table).write entry (table ||| pgTableFlags)
  else some mem

/-- `page_map`; `pdpt` and `pdt` are the tables `kmalloc` has to give. -/
def pageMap (mem : Memory) (pml4t paddr vaddr : Nat) (pdpt pdt : Option Nat) :
    Option Memory := do
  let paddr := paddr &&& pageMask
  let vaddr := vaddr &&& pageMask
  let pml4e := pml4t + 8 * addrPml4tIndex vaddr
  let mem ← mem.ensureTable pml4e pdpt
  let pdpte := (mem pml4e &&& entryMask) + 8 * addrPdptIndex vaddr
  let mem ← mem.ensureTable pdpte pdt
  let pde := (mem pdpte &&& entryMask) + 8 * addrPdtIndex vaddr
  return mem.write pde (paddr ||| pgDefaultFlags)

/-- `page_unmap`; `none` is a failed `ASSERT`. -/
def pageUnmap (mem : Memory) (pml4t vaddr : Nat) : Option Memory :=
  let vaddr := vaddr &&& pageMask
  let pml4e := pml4t + 8 * addrPml4tIndex vaddr
  if mem pml4e &&& pgP = 0 then none
  else
    let pdpte := (mem pml4e &&& entryMask) + 8 * addrPdptIndex vaddr
    if mem pdpte &&& pgP = 0 then none
    else
      let pde := (mem pdpte &&& entryMask) + 8 * addrPdtIndex vaddr
      if mem pde &&& pgP = 0 then none
      else some (mem.write pde (mem pde &&& 0xfffffffffffffffe))

end Memory

/-! ## Fields and entries -/

theorem getField_lt (x shift : Nat) : getField x shift 0x1ff < 512 :=
  Nat.lt_of_le_of_lt Nat.and_le_right (by decide)

theorem getField_eq (x shift : Nat) : getField x shift 0x1ff = x / 2 ^ shift % 512 := by
  have h := Nat.and_two_pow_sub_one_eq_mod (x >>> shift) 9
  rw [Nat.shiftRight_eq_div_pow] at h
  rw [getField, Nat.shiftRight_eq_div_pow]
  exact h

theorem addrOffset_eq (vaddr : Nat) : addrOffset vaddr = vaddr % pgSize :=
  Nat.and_two_pow_sub_one_eq_mod vaddr 21

/-- A mask of all bits from `n` on rounds down. -/
theorem and_highMask {x n : Nat} (hn : n ≤ 64) (hx : x < 2 ^ 64) :
    x &&& ((2 ^ (64 - n) - 1) <<< n) = x / 2 ^ n * 2 ^ n := by
  have hlow : x &&& ((2 ^ (64 - n) - 1) <<< n) =
      ((x >>> n) &&& (2 ^ (64 - n) - 1)) <<< n := by
    apply Nat.eq_of_testBit_eq
    intro i
    simp only [Nat.testBit_and, Nat.testBit_shiftLeft, Nat.testBit_shiftRight]
    by_cases hi : n ≤ i
    · simp [hi, Nat.add_sub_cancel' hi]
    · simp [hi]
  have hdiv : x / 2 ^ n < 2 ^ (64 - n) := by
    apply Nat.div_lt_of_lt_mul
    rwa [← Nat.pow_add, Nat.add_sub_cancel' hn]
  rw [hlow, Nat.and_two_pow_sub_one_eq_mod, Nat.shiftRight_eq_div_pow, Nat.shiftLeft_eq,
    Nat.mod_eq_of_lt hdiv]

theorem and_pageMask {x : Nat} (hx : x < 2 ^ 64) : x &&& pageMask = x / pgSize * pgSize :=
  and_highMask (by decide : 21 ≤ 64) hx

/-- Flags below bit 12 do not disturb the address of an aligned table or page. -/
theorem or_flags_and_entryMask {x flags : Nat} (hx : x < 2 ^ 64) (halign : x % ptSize = 0)
    (hflags : flags < ptSize) : (x ||| flags) &&& entryMask = x := by
  have hlt : x ||| flags < 2 ^ 64 := Nat.or_lt_two_pow hx (hflags.trans (by decide))
  have hdiv : (x ||| flags) / 2 ^ 12 = x / 2 ^ 12 := by
    rw [Nat.or_div_two_pow, Nat.div_eq_of_lt (show flags < 2 ^ 12 from hflags), Nat.or_zero]
  have hmask : (x ||| flags) &&& entryMask = x / 2 ^ 12 * 2 ^ 12 := by
    rw [← hdiv]
    exact and_highMask (by decide : 12 ≤ 64) hlt
  rw [hmask]
  unfold ptSize at halign
  omega

theorem entryMask_aligned (e : Nat) : (e &&& entryMask) % ptSize = 0 := by
  rw [show ptSize = 2 ^ 12 from rfl, Nat.and_mod_two_pow]
  exact Nat.and_zero _

/-- Where a present entry leads. -/
def entryLink (e : Nat) : Option Nat := if e &&& pgP = 0 then none else some (e &&& entryMask)

theorem entryLink_eq_none {e : Nat} : entryLink e = none ↔ e &&& pgP = 0 := by
  unfold entryLink
  split <;> simp_all

theorem entryLink_zero : entryLink 0 = none := rfl

theorem entryLink_or {x flags : Nat} (hx : x < 2 ^ 64) (halign : x % ptSize = 0)
    (hflags : flags < ptSize) (hodd : flags % 2 = 1) : entryLink (x ||| flags) = some x := by
  have hpresent : (x ||| flags) &&& pgP ≠ 0 := by
    rw [Nat.and_one_is_mod, show 2 = 2 ^ 1 from rfl, Nat.or_mod_two_pow, Nat.pow_one, hodd]
    rcases Nat.mod_two_eq_zero_or_one x with h | h <;> rw [h] <;> decide
  rw [entryLink, if_neg hpresent, or_flags_and_entryMask hx halign hflags]

theorem entryLink_clear (e : Nat) : entryLink (e &&& 0xfffffffffffffffe) = none := by
  rw [entryLink_eq_none, Nat.and_assoc]
  exact Nat.and_zero e

namespace Memory

/-! ## The tree of tables -/

/-- A table as cells: its 512 entries. -/
def tableWord (mem : Memory) (table : Nat) (i : Fin 512) : Nat := mem (table + 8 * i)

def pml4tIndex (vaddr : Nat) : Fin 512 := ⟨addrPml4tIndex vaddr, getField_lt _ _⟩

def pdptIndex (vaddr : Nat) : Fin 512 := ⟨addrPdptIndex vaddr, getField_lt _ _⟩

def pdtIndex (vaddr : Nat) : Fin 512 := ⟨addrPdtIndex vaddr, getField_lt _ _⟩

/-- The indices the walk for an address takes. -/
def indexPath (vaddr : Nat) : List (Fin 512) :=
  [pml4tIndex vaddr, pdptIndex vaddr, pdtIndex vaddr]

/-- The table or page reached from a directory along a path of indices. -/
abbrev walk (mem : Memory) (pml4t : Nat) (path : List (Fin 512)) : Option Nat :=
  tableAt entryLink mem.tableWord pml4t path

/-- `table` is the directory, a page directory pointer table or a page directory of the tree. -/
abbrev IsTable (mem : Memory) (pml4t table : Nat) : Prop :=
  InTree entryLink mem.tableWord pml4t 2 table

/-- A well-formed tree: the directory is aligned and no table is shared. -/
structure PageTree (mem : Memory) (pml4t : Nat) : Prop where
  aligned : pml4t % ptSize = 0
  unshared : Unshared entryLink mem.tableWord pml4t 2

/-- A block that can become a table: 4 KiB, aligned, not one of the tables in use. -/
structure FreshTable (mem : Memory) (pml4t table : Nat) : Prop where
  aligned : table % ptSize = 0
  bounded : table < 2 ^ 64
  unused : ¬ mem.IsTable pml4t table

theorem walk_cons (mem : Memory) (table : Nat) (i : Fin 512) (path : List (Fin 512)) :
    mem.walk table (i :: path) =
      (entryLink (mem (table + 8 * i))).bind fun next => mem.walk next path := rfl

theorem walk_of_entryLink {mem : Memory} {table next : Nat} {i : Fin 512}
    (hlink : entryLink (mem.tableWord table i) = some next) (path : List (Fin 512)) :
    mem.walk table (i :: path) = mem.walk next path := by
  rw [walk, tableAt, hlink, Option.bind_some]

theorem walk_of_entryLink_none {mem : Memory} {table : Nat} {i : Fin 512}
    (hlink : entryLink (mem.tableWord table i) = none) (path : List (Fin 512)) :
    mem.walk table (i :: path) = none := by
  rw [walk, tableAt, hlink, Option.bind_none]

theorem walk_concat (mem : Memory) (pml4t : Nat) (path : List (Fin 512)) (i : Fin 512) :
    mem.walk pml4t (path ++ [i]) =
      (mem.walk pml4t path).bind fun table => entryLink (mem (table + 8 * i)) :=
  tableAt_concat path i

/-- Translation is the walk along the address's indices. -/
theorem toPhysicalAddress_eq (mem : Memory) (pml4t vaddr : Nat) :
    mem.toPhysicalAddress pml4t vaddr =
      match mem.walk pml4t (indexPath vaddr) with
      | none => 0
      | some page => add64 page (vaddr % pgSize) := by
  simp only [toPhysicalAddress, indexPath, walk_cons, walk, tableAt_nil, ← addrOffset_eq,
    pml4tIndex, pdptIndex, pdtIndex, entryLink]
  by_cases hpml4e : mem (pml4t + 8 * addrPml4tIndex vaddr) &&& pgP = 0
  · simp only [if_pos hpml4e, Option.bind_none]
  simp only [if_neg hpml4e, Option.bind_some]
  by_cases hpdpte : mem ((mem (pml4t + 8 * addrPml4tIndex vaddr) &&& entryMask) +
      8 * addrPdptIndex vaddr) &&& pgP = 0
  · simp only [if_pos hpdpte, Option.bind_none]
  simp only [if_neg hpdpte, Option.bind_some]
  split
  · rfl
  · rfl

/-- A canonical address: bits 47 to 63 are equal. -/
def Canonical (vaddr : Nat) : Prop :=
  vaddr < 2 ^ 47 ∨ 2 ^ 64 - 2 ^ 47 ≤ vaddr ∧ vaddr < 2 ^ 64

/-- Canonical addresses take the same path just when they lie in the same page. -/
theorem indexPath_eq_iff {a b : Nat} (ha : Canonical a) (hb : Canonical b) :
    indexPath a = indexPath b ↔ a / pgSize = b / pgSize := by
  simp only [indexPath, pml4tIndex, pdptIndex, pdtIndex, addrPml4tIndex, addrPdptIndex,
    addrPdtIndex, List.cons.injEq, Fin.mk.injEq, getField_eq, and_true]
  unfold Canonical at ha hb
  unfold pgSize
  omega

theorem walk_aligned {mem : Memory} {pml4t : Nat} (halign : pml4t % ptSize = 0)
    {path : List (Fin 512)} {table : Nat} (hwalk : mem.walk pml4t path = some table) :
    table % ptSize = 0 := by
  cases path using List.reverseRecOn with
  | nil =>
      rw [← Option.some.inj hwalk]
      exact halign
  | append_singleton path i =>
      rw [walk_concat, Option.bind_eq_some_iff] at hwalk
      obtain ⟨parent, -, hlink⟩ := hwalk
      unfold entryLink at hlink
      split at hlink
      · cases hlink
      · rw [← Option.some.inj hlink]
        exact entryMask_aligned _

theorem IsTable.aligned {mem : Memory} {pml4t table : Nat} (halign : pml4t % ptSize = 0)
    (htable : mem.IsTable pml4t table) : table % ptSize = 0 := by
  obtain ⟨path, -, hwalk⟩ := htable
  exact walk_aligned halign hwalk

/-- Two entries of aligned tables are two words. -/
theorem entry_ne {t t' : Nat} (ht : t % ptSize = 0) (ht' : t' % ptSize = 0) {i i' : Fin 512}
    (hne : ¬ (t' = t ∧ i' = i)) : t' + 8 * (i' : Nat) ≠ t + 8 * (i : Nat) := by
  intro heq
  have hi := i.isLt
  have hi' := i'.isLt
  unfold ptSize at ht ht'
  have ht : t' = t := by omega
  exact hne ⟨ht, Fin.ext (by omega)⟩

/-! ## What the writes of `page_map` and `page_unmap` change -/

section Write

variable {mem : Memory} {pml4t table fresh : Nat} {path : List (Fin 512)} (i : Fin 512)

theorem entryLink_eq_some {e t : Nat} (h : entryLink e = some t) :
    e &&& pgP ≠ 0 ∧ e &&& entryMask = t := by
  unfold entryLink at h
  split at h
  · cases h
  · next hpresent => exact ⟨hpresent, Option.some.inj h⟩

/-- Writing an entry of a table of the tree. -/
theorem writtenAt_write (word : Nat) (htree : PageTree mem pml4t) (htable : mem.IsTable pml4t table) :
    WrittenAt entryLink mem.tableWord (mem.write (table + 8 * (i : Nat)) word).tableWord pml4t 2
      table i word := by
  have halign := htable.aligned htree.aligned
  refine ⟨Function.update_self .., fun table' htable' i' hne => ?_⟩
  have halign' := IsTable.aligned htree.aligned htable'
  exact Function.update_of_ne (entry_ne halign halign' hne) ..

/-- The tables of the tree do not reach into a fresh block. -/
theorem zeroTable_of_isTable (htree : PageTree mem pml4t) (hfresh : FreshTable mem pml4t fresh)
    (htable : mem.IsTable pml4t table) :
    mem.zeroTable fresh (table + 8 * (i : Nat)) = mem (table + 8 * (i : Nat)) := by
  have hne : table ≠ fresh := fun heq => hfresh.unused (heq ▸ htable)
  have halign := htable.aligned htree.aligned
  have halign' := hfresh.aligned
  have hi := i.isLt
  unfold ptSize at halign halign'
  rw [zeroTable, if_neg]
  unfold ptSize
  omega

/-- Writing an entry of a table of the tree after clearing a fresh block. -/
theorem writtenAt_link (word : Nat) (htree : PageTree mem pml4t) (hfresh : FreshTable mem pml4t fresh)
    (htable : mem.IsTable pml4t table) :
    WrittenAt entryLink mem.tableWord
      ((mem.zeroTable fresh).write (table + 8 * (i : Nat)) word).tableWord pml4t 2 table i word := by
  have halign := htable.aligned htree.aligned
  refine ⟨Function.update_self .., fun table' htable' i' hne => ?_⟩
  have halign' := IsTable.aligned htree.aligned htable'
  calc ((mem.zeroTable fresh).write (table + 8 * (i : Nat)) word) (table' + 8 * (i' : Nat))
      = mem.zeroTable fresh (table' + 8 * (i' : Nat)) :=
        Function.update_of_ne (entry_ne halign halign' hne) ..
    _ = mem (table' + 8 * (i' : Nat)) := zeroTable_of_isTable i' htree hfresh htable'

/-- A cleared block stays clear when an entry outside of it is written. -/
theorem zeroTable_empty (word : Nat) (htree : PageTree mem pml4t) (hfresh : FreshTable mem pml4t fresh)
    (htable : mem.IsTable pml4t table) (i' : Fin 512) :
    ((mem.zeroTable fresh).write (table + 8 * (i : Nat)) word).tableWord fresh i' = 0 := by
  have hne : ¬ (fresh = table ∧ i' = i) := fun heq => hfresh.unused (heq.1 ▸ htable)
  have hentry := entry_ne (htable.aligned htree.aligned) hfresh.aligned hne
  have hi' := i'.isLt
  rw [tableWord, write, Function.update_of_ne hentry, zeroTable, if_pos]
  unfold ptSize
  omega

/-- After `ensureTable` the entry leads to a table, and every other walk is as before. -/
theorem ensureTable_walk (htree : PageTree mem pml4t) (hlen : path.length ≤ 1)
    (hwalk : mem.walk pml4t path = some table) (hfresh : FreshTable mem pml4t fresh) :
    ∃ mem' table', mem.ensureTable (table + 8 * (i : Nat)) (some fresh) = some mem' ∧
      PageTree mem' pml4t ∧ mem'.walk pml4t (path ++ [i]) = some table' ∧
      (∀ path', path'.length ≤ 3 → path' ≠ path ++ [i] →
        mem'.walk pml4t path' = mem.walk pml4t path') ∧
      ∀ t, mem'.IsTable pml4t t → mem.IsTable pml4t t ∨ t = fresh := by
  have htable : mem.IsTable pml4t table := ⟨path, by omega, hwalk⟩
  rw [ensureTable]
  split
  · next habsent =>
      have hnone : entryLink (mem.tableWord table i) = none := entryLink_eq_none.mpr habsent
      have hwrite := writtenAt_link i (fresh ||| pgTableFlags) htree hfresh htable
      have hlink : entryLink (fresh ||| pgTableFlags) = some fresh :=
        entryLink_or hfresh.bounded hfresh.aligned (by decide) (by decide)
      have hempty (i' : Fin 512) : entryLink (((mem.zeroTable fresh).write (table + 8 * (i : Nat))
          (fresh ||| pgTableFlags)).tableWord fresh i') = none := by
        rw [zeroTable_empty i _ htree hfresh htable]
        exact entryLink_zero
      have hwalks {path' : List (Fin 512)} (hpath' : path'.length ≤ 3) :=
        tableAt_link htree.unshared (by omega) hwalk hwrite hnone hlink hempty hpath'
      refine ⟨_, fresh, rfl, ⟨htree.aligned, ?_⟩, ?_, fun path' hpath' hne => ?_, ?_⟩
      · exact htree.unshared.link (by omega) hwalk hwrite hnone hlink hempty hfresh.unused
      · rw [walk, hwalks (by rw [List.length_append, List.length_singleton]; omega), if_pos rfl]
      · rw [walk, hwalks hpath', if_neg hne]
      · rintro t ⟨path', hpath', hmem⟩
        rw [hwalks (by omega)] at hmem
        split at hmem
        · exact Or.inr (Option.some.inj hmem).symm
        · exact Or.inl ⟨path', hpath', hmem⟩
  · next hpresent =>
      refine ⟨mem, mem (table + 8 * (i : Nat)) &&& entryMask, rfl, htree, ?_,
        fun _ _ _ => rfl, fun _ => Or.inl⟩
      rw [walk_concat, hwalk, Option.bind_some]
      exact if_neg hpresent

end Write

/-! ## Mapping and unmapping a page -/

variable {mem : Memory} {pml4t vaddr paddr pdpt pdt : Nat}

theorem pageMask_div {shift : Nat} (hshift : 21 ≤ shift) (hvaddr : vaddr < 2 ^ 64) :
    getField (vaddr &&& pageMask) shift 0x1ff = getField vaddr shift 0x1ff := by
  have hround : (vaddr / pgSize * pgSize) / pgSize = vaddr / pgSize :=
    Nat.mul_div_cancel _ (by decide)
  rw [getField_eq, getField_eq, and_pageMask hvaddr, ← Nat.add_sub_cancel' hshift, Nat.pow_add,
    ← Nat.div_div_eq_div_mul, ← Nat.div_div_eq_div_mul]
  exact congrArg (· / 2 ^ (shift - 21) % 512) hround

theorem addrPml4tIndex_pageMask (hvaddr : vaddr < 2 ^ 64) :
    addrPml4tIndex (vaddr &&& pageMask) = addrPml4tIndex vaddr :=
  pageMask_div (by decide) hvaddr

theorem addrPdptIndex_pageMask (hvaddr : vaddr < 2 ^ 64) :
    addrPdptIndex (vaddr &&& pageMask) = addrPdptIndex vaddr :=
  pageMask_div (by decide) hvaddr

theorem addrPdtIndex_pageMask (hvaddr : vaddr < 2 ^ 64) :
    addrPdtIndex (vaddr &&& pageMask) = addrPdtIndex vaddr :=
  pageMask_div (by decide) hvaddr

/-- An entry on a walk is read as the code reads it. -/
theorem entry_of_walk {path : List (Fin 512)} {i : Fin 512} {table next : Nat}
    (hwalk : mem.walk pml4t path = some table)
    (hnext : mem.walk pml4t (path ++ [i]) = some next) :
    mem (table + 8 * (i : Nat)) &&& pgP ≠ 0 ∧
      mem (table + 8 * (i : Nat)) &&& entryMask = next := by
  rw [walk_concat, hwalk, Option.bind_some] at hnext
  exact entryLink_eq_some hnext

/-- Writing an entry of a page directory changes the walks to that page only. -/
theorem write_walk {path : List (Fin 512)} {table : Nat} (i : Fin 512) (word : Nat)
    (htree : PageTree mem pml4t) (hlen : path.length = 2)
    (hwalk : mem.walk pml4t path = some table) :
    PageTree (mem.write (table + 8 * (i : Nat)) word) pml4t ∧
      ∀ path', path'.length = 3 → (mem.write (table + 8 * (i : Nat)) word).walk pml4t path' =
        if path' = path ++ [i] then entryLink word else mem.walk pml4t path' := by
  have hwrite := writtenAt_write i word htree ⟨path, hlen.le, hwalk⟩
  refine ⟨⟨htree.aligned, htree.unshared.write hlen hwalk hwrite⟩, fun path' hpath' => ?_⟩
  split
  · next heq =>
      rw [heq]
      exact tableAt_written htree.unshared hlen.le hwalk hwrite
  · next hne =>
      apply tableAt_of_apart htree.unshared hlen.le hwalk hwrite hpath'.le
      intro hpre
      apply hne
      apply (hpre.eq_of_length ?_).symm
      rw [List.length_append, List.length_singleton, hlen, hpath']

/-- The stages of `page_map`. -/
theorem pageMap_eq_some (hvaddr : vaddr < 2 ^ 64) {mem' : Memory} {pdpt pdt : Option Nat} :
    mem.pageMap pml4t paddr vaddr pdpt pdt = some mem' ↔
      ∃ mem₁ mem₂, mem.ensureTable (pml4t + 8 * (pml4tIndex vaddr : Nat)) pdpt = some mem₁ ∧
        mem₁.ensureTable ((mem₁ (pml4t + 8 * (pml4tIndex vaddr : Nat)) &&& entryMask) +
          8 * (pdptIndex vaddr : Nat)) pdt = some mem₂ ∧
        mem' = mem₂.write ((mem₂ ((mem₁ (pml4t + 8 * (pml4tIndex vaddr : Nat)) &&& entryMask) +
          8 * (pdptIndex vaddr : Nat)) &&& entryMask) + 8 * (pdtIndex vaddr : Nat))
          ((paddr &&& pageMask) ||| pgDefaultFlags) := by
  simp only [pageMap, addrPml4tIndex_pageMask hvaddr, addrPdptIndex_pageMask hvaddr,
    addrPdtIndex_pageMask hvaddr, Option.bind_eq_bind, Option.bind_eq_some_iff, Option.pure_def,
    Option.some.injEq, pml4tIndex, pdptIndex, pdtIndex]
  constructor
  · rintro ⟨mem₁, h₁, mem₂, h₂, rfl⟩
    exact ⟨mem₁, mem₂, h₁, h₂, rfl⟩
  · rintro ⟨mem₁, mem₂, h₁, h₂, rfl⟩
    exact ⟨mem₁, h₁, mem₂, h₂, rfl⟩

/-- `page_map` returns when `kmalloc` does not fail. -/
theorem exists_pageMap (mem : Memory) (pml4t paddr vaddr pdpt pdt : Nat) :
    ∃ mem', mem.pageMap pml4t paddr vaddr (some pdpt) (some pdt) = some mem' := by
  have hensure (m : Memory) (entry table : Nat) : ∃ m', m.ensureTable entry (some table) = some m' := by
    unfold ensureTable
    split
    · exact ⟨_, rfl⟩
    · exact ⟨_, rfl⟩
  obtain ⟨mem₁, h₁⟩ := hensure mem (pml4t + 8 * addrPml4tIndex (vaddr &&& pageMask)) pdpt
  obtain ⟨mem₂, h₂⟩ := hensure mem₁ ((mem₁ (pml4t + 8 * addrPml4tIndex (vaddr &&& pageMask)) &&&
    entryMask) + 8 * addrPdptIndex (vaddr &&& pageMask)) pdt
  simp only [pageMap, h₁, h₂, Option.bind_eq_bind, Option.bind_some, Option.pure_def]
  exact ⟨_, rfl⟩

/-- The entry `page_map` writes last. -/
theorem entryLink_page (hpaddr : paddr < 2 ^ 64) :
    entryLink ((paddr &&& pageMask) ||| pgDefaultFlags) = some (paddr / pgSize * pgSize) := by
  rw [and_pageMask hpaddr]
  apply entryLink_or _ _ (by decide) (by decide)
  · exact (Nat.div_mul_le_self _ _).trans_lt hpaddr
  · unfold pgSize ptSize
    omega

/-- `page_map` gives the page's path its frame and leaves every other path as it was. -/
theorem pageMap_walk (htree : PageTree mem pml4t) (hvaddr : vaddr < 2 ^ 64)
    (hpaddr : paddr < 2 ^ 64) (hpdpt : FreshTable mem pml4t pdpt)
    (hpdt : FreshTable mem pml4t pdt) (hne : pdt ≠ pdpt) :
    ∃ mem', mem.pageMap pml4t paddr vaddr (some pdpt) (some pdt) = some mem' ∧
      PageTree mem' pml4t ∧ ∀ path, path.length = 3 → mem'.walk pml4t path =
        if path = indexPath vaddr then some (paddr / pgSize * pgSize)
        else mem.walk pml4t path := by
  have hroot (m : Memory) : m.walk pml4t [] = some pml4t := rfl
  have hlen : ([] : List (Fin 512)).length ≤ 1 := Nat.zero_le 1
  obtain ⟨mem₁, table₁, hensure₁, htree₁, hwalk₁, hsame₁, htables₁⟩ :=
    ensureTable_walk (pml4tIndex vaddr) htree hlen (hroot mem)
      hpdpt
  have hpdt₁ : FreshTable mem₁ pml4t pdt := by
    refine ⟨hpdt.aligned, hpdt.bounded, fun htable => ?_⟩
    exact (htables₁ _ htable).elim hpdt.unused hne
  obtain ⟨mem₂, table₂, hensure₂, htree₂, hwalk₂, hsame₂, -⟩ :=
    ensureTable_walk (pdptIndex vaddr) htree₁ (le_refl 1) hwalk₁ hpdt₁
  obtain ⟨htree₃, hwalk₃⟩ := write_walk (pdtIndex vaddr)
    ((paddr &&& pageMask) ||| pgDefaultFlags) htree₂ rfl hwalk₂
  have hmap : mem.pageMap pml4t paddr vaddr (some pdpt) (some pdt) = some (mem₂.write
      (table₂ + 8 * (pdtIndex vaddr : Nat)) ((paddr &&& pageMask) ||| pgDefaultFlags)) := by
    have hentry₁ := (entry_of_walk (hroot mem₁) hwalk₁).2
    have hentry₂ := (entry_of_walk ((hsame₂ _ (by simp) (by simp)).trans hwalk₁) hwalk₂).2
    rw [pageMap_eq_some hvaddr]
    refine ⟨mem₁, mem₂, hensure₁, ?_, ?_⟩
    · rw [hentry₁, hensure₂]
    · rw [hentry₁, hentry₂]
  refine ⟨_, hmap, htree₃, fun path hpath => ?_⟩
  have hpath₂ : path ≠ [] ++ [pml4tIndex vaddr] ++ [pdptIndex vaddr] := by
    rintro rfl
    simp at hpath
  have hpath₁ : path ≠ [] ++ [pml4tIndex vaddr] := by
    rintro rfl
    simp at hpath
  rw [← entryLink_page hpaddr, ← hsame₁ path hpath.le hpath₁, ← hsame₂ path hpath.le hpath₂]
  exact hwalk₃ path hpath

/-- `page_unmap` of a mapped page cuts off the page's path only. -/
theorem pageUnmap_walk (htree : PageTree mem pml4t) (hvaddr : vaddr < 2 ^ 64) {page : Nat}
    (hmapped : mem.walk pml4t (indexPath vaddr) = some page) :
    ∃ mem', mem.pageUnmap pml4t vaddr = some mem' ∧ PageTree mem' pml4t ∧
      ∀ path, path.length = 3 → mem'.walk pml4t path =
        if path = indexPath vaddr then none else mem.walk pml4t path := by
  have hroot : mem.walk pml4t [] = some pml4t := rfl
  obtain ⟨table₂, hwalk₂, hlink₂⟩ := Option.bind_eq_some_iff.mp
    ((walk_concat mem pml4t [pml4tIndex vaddr, pdptIndex vaddr] _).symm.trans hmapped)
  obtain ⟨table₁, hwalk₁, hlink₁⟩ := Option.bind_eq_some_iff.mp
    ((walk_concat mem pml4t [pml4tIndex vaddr] _).symm.trans hwalk₂)
  obtain ⟨hpml4e, hentry₁⟩ := entry_of_walk (i := pml4tIndex vaddr) hroot hwalk₁
  obtain ⟨hpdpte, hentry₂⟩ := entryLink_eq_some hlink₁
  obtain ⟨hpde, -⟩ := entryLink_eq_some hlink₂
  obtain ⟨htree', hwalk'⟩ := write_walk (pdtIndex vaddr)
    (mem (table₂ + 8 * addrPdtIndex vaddr) &&& 0xfffffffffffffffe) htree rfl hwalk₂
  have hunmap : mem.pageUnmap pml4t vaddr = some (mem.write (table₂ + 8 * addrPdtIndex vaddr)
      (mem (table₂ + 8 * addrPdtIndex vaddr) &&& 0xfffffffffffffffe)) := by
    have hpml4e : ¬ mem (pml4t + 8 * addrPml4tIndex vaddr) &&& pgP = 0 := hpml4e
    have hentry₁ : mem (pml4t + 8 * addrPml4tIndex vaddr) &&& entryMask = table₁ := hentry₁
    have hpdpte : ¬ mem (table₁ + 8 * addrPdptIndex vaddr) &&& pgP = 0 := hpdpte
    have hentry₂ : mem (table₁ + 8 * addrPdptIndex vaddr) &&& entryMask = table₂ := hentry₂
    have hpde : ¬ mem (table₂ + 8 * addrPdtIndex vaddr) &&& pgP = 0 := hpde
    simp only [pageUnmap, addrPml4tIndex_pageMask hvaddr, addrPdptIndex_pageMask hvaddr,
      addrPdtIndex_pageMask hvaddr, hentry₁, hentry₂]
    rw [if_neg hpml4e, if_neg hpdpte, if_neg hpde]
  refine ⟨_, hunmap, htree', fun path hpath => ?_⟩
  rw [← entryLink_clear (mem (table₂ + 8 * addrPdtIndex vaddr))]
  exact hwalk' path hpath

theorem Canonical.lt {a : Nat} (ha : Canonical a) : a < 2 ^ 64 := by
  unfold Canonical at ha
  omega

theorem toPhysicalAddress_of_none {a : Nat} (hwalk : mem.walk pml4t (indexPath a) = none) :
    mem.toPhysicalAddress pml4t a = 0 := by
  rw [toPhysicalAddress_eq, hwalk]

theorem toPhysicalAddress_congr {mem' : Memory} {a : Nat}
    (hwalk : mem'.walk pml4t (indexPath a) = mem.walk pml4t (indexPath a)) :
    mem'.toPhysicalAddress pml4t a = mem.toPhysicalAddress pml4t a := by
  rw [toPhysicalAddress_eq, toPhysicalAddress_eq, hwalk]

/-- Mapping a page and unmapping it again: in between its addresses translate into the given
frame, afterwards they are untranslated, and every other address translates as before. -/
theorem pageMap_pageUnmap (htree : PageTree mem pml4t) (hvaddr : Canonical vaddr)
    (hpaddr : paddr < 2 ^ 52) (hpdpt : FreshTable mem pml4t pdpt)
    (hpdt : FreshTable mem pml4t pdt) (hne : pdt ≠ pdpt) :
    ∃ mapped, mem.pageMap pml4t paddr vaddr (some pdpt) (some pdt) = some mapped ∧
      PageTree mapped pml4t ∧
      (∀ a, Canonical a → mapped.toPhysicalAddress pml4t a =
        if a / pgSize = vaddr / pgSize then paddr / pgSize * pgSize + a % pgSize
        else mem.toPhysicalAddress pml4t a) ∧
      ∃ unmapped, mapped.pageUnmap pml4t vaddr = some unmapped ∧
        PageTree unmapped pml4t ∧
        ∀ a, Canonical a → unmapped.toPhysicalAddress pml4t a =
          if a / pgSize = vaddr / pgSize then 0 else mem.toPhysicalAddress pml4t a := by
  obtain ⟨mapped, hmap, htree', hwalk⟩ :=
    pageMap_walk htree hvaddr.lt (hpaddr.trans (by decide)) hpdpt hpdt hne
  obtain ⟨unmapped, hunmap, htree'', hwalk'⟩ :=
    pageUnmap_walk htree' hvaddr.lt ((hwalk _ rfl).trans (if_pos rfl))
  refine ⟨mapped, hmap, htree', fun a ha => ?_, unmapped, hunmap, htree'', fun a ha => ?_⟩
  · split
    · next hpage =>
        rw [toPhysicalAddress_eq, hwalk _ rfl, if_pos ((indexPath_eq_iff ha hvaddr).mpr hpage)]
        apply add64_of_lt
        unfold pgSize wordSize
        omega
    · next hpage =>
        apply toPhysicalAddress_congr
        rw [hwalk _ rfl, if_neg (mt (indexPath_eq_iff ha hvaddr).mp hpage)]
  · split
    · next hpage =>
        apply toPhysicalAddress_of_none
        rw [hwalk' _ rfl, if_pos ((indexPath_eq_iff ha hvaddr).mpr hpage)]
    · next hpage =>
        have hpath := mt (indexPath_eq_iff ha hvaddr).mp hpage
        apply toPhysicalAddress_congr
        rw [hwalk' _ rfl, if_neg hpath, hwalk _ rfl, if_neg hpath]

/-- In a cleared directory no walk gets past the root. -/
theorem eq_nil_of_walk_zero {path : List (Fin 512)} {table : Nat}
    (hwalk : walk (fun _ => 0) pml4t path = some table) : path = [] ∧ table = pml4t := by
  cases path with
  | nil => exact ⟨rfl, (Option.some.inj hwalk).symm⟩
  | cons i path =>
      rw [walk_cons, entryLink_zero] at hwalk
      cases hwalk

theorem pageTree_zero (halign : pml4t % ptSize = 0) : PageTree (fun _ => 0) pml4t := by
  refine ⟨halign, fun path path' table _ _ hwalk hwalk' => ?_⟩
  rw [(eq_nil_of_walk_zero hwalk).1, (eq_nil_of_walk_zero hwalk').1]

/-- The first page of a program is mapped into a cleared directory and unmapped again. -/
theorem pageMap_pageUnmap_cleared :
    ∃ mapped, pageMap (fun _ => 0) 0x510000 0x3000000 0x400000 (some 0x1000000)
        (some 0x1001000) = some mapped ∧
      mapped.toPhysicalAddress 0x510000 0x412345 = 0x3012345 ∧
      mapped.toPhysicalAddress 0x510000 0x612345 = 0 ∧
      ∃ unmapped, mapped.pageUnmap 0x510000 0x400000 = some unmapped ∧
        unmapped.toPhysicalAddress 0x510000 0x412345 = 0 := by
  have hfresh {table : Nat} (halign : table % ptSize = 0) (hlt : table < 2 ^ 64)
      (hne : table ≠ 0x510000) : FreshTable (fun _ => 0) 0x510000 table :=
    ⟨halign, hlt, fun ⟨_, _, hwalk⟩ => hne (eq_nil_of_walk_zero hwalk).2⟩
  have hpdpt := hfresh (show 0x1000000 % ptSize = 0 by decide) (by decide) (by decide)
  have hpdt := hfresh (show 0x1001000 % ptSize = 0 by decide) (by decide) (by decide)
  have hvaddr : Canonical 0x400000 := .inl (by decide)
  have hpaddr : 0x3000000 < 2 ^ 52 := by decide
  obtain ⟨mapped, hmap, -, htranslate, unmapped, hunmap, -, htranslate'⟩ :=
    pageMap_pageUnmap (pageTree_zero (by decide)) hvaddr hpaddr hpdpt hpdt (by decide)
  refine ⟨mapped, hmap, ?_, ?_, unmapped, hunmap, ?_⟩
  · exact htranslate 0x412345 (.inl (by decide))
  · exact htranslate 0x612345 (.inl (by decide))
  · exact htranslate' 0x412345 (.inl (by decide))

end Memory

end ClayFigure
