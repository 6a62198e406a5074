/-
# The first page tables

`CreatePage` of `bootloader/memory.c` fills nine pages with the tables the kernel starts on:
the low 4 GiB at 0 and at `KERNEL_VMA_BASE`, 4 MiB at the addresses the kernel is linked to,
and the frame buffer behind them. The boot loader has its own copy of the paging format; that
the kernel's walk reads what is meant here is the result of this module.
-/

import ClayFigure.Mem.PageTable

namespace ClayFigure

namespace CreatePage

/-! ## The code -/

/-- `PG_US_U | PG_RW_W | PG_P` with the boot loader's constants. -/
abbrev tableFlags : Nat := 0x4 ||| 0x2 ||| 0x1

/-- `PG_US_U | PG_RW_W | PG_P | PG_SIZE_2M`. -/
abbrev pageFlags : Nat := 0x4 ||| 0x2 ||| 0x1 ||| 0x80

/-- `gBS->SetMem`, a service of the firmware, by its effect on the words of memory: those of the
buffer get the value in each of their bytes, and no other is changed. -/
structure SetMem where
  fill : Memory → Nat → Nat → Byte → Memory
  inside : ∀ mem buffer size value a, buffer ≤ a → a < buffer + size →
    fill mem buffer size value a = value.toNat * 0x0101010101010101
  outside : ∀ mem buffer size value a, a < buffer ∨ buffer + size ≤ a →
    fill mem buffer size value a = mem a

/-- One pass of a loop over `pdt_index`, on the memory and `addr`. -/
def fillEntry (pdt : Nat) (s : Memory × Nat) (pdtIndex : Nat) : Memory × Nat :=
  (s.1.write (pdt + 8 * pdtIndex) (s.2 ||| pageFlags), add64 s.2 0x200000)

/-- A loop over `pdt_index` below `n`. -/
def fillPdt (pdt n : Nat) (s : Memory × Nat) : Memory × Nat :=
  (List.range n).foldl (fillEntry pdt) s

theorem fillPdt_succ (pdt n : Nat) (s : Memory × Nat) :
    fillPdt pdt (n + 1) s = fillEntry pdt (fillPdt pdt n s) n := by
  unfold fillPdt
  rw [List.range_succ, List.foldl_append, List.foldl_cons, List.foldl_nil]

/-- The memory behind such a loop. -/
def fillPages (pdt n : Nat) (mem : Memory) (addr : Nat) : Memory := (fillPdt pdt n (mem, addr)).1

/-- One pass of the loop over `pdpt_index`, on the memory, `PG_TABLE` and `addr`. -/
def fillTable (pdpt : Nat) (s : Memory × Nat × Nat) (pdptIndex : Nat) : Memory × Nat × Nat :=
  let pdt := s.2.1
  let mem := s.1.write (pdpt + 8 * pdptIndex) (pdt ||| tableFlags)
  let filled := fillPdt pdt 512 (mem, s.2.2)
  (filled.1, add64 pdt 0x1000, filled.2)

/-- `CreatePage` up to the second comment: the low 4 GiB, at two places. -/
def mapLow (mem : Memory) (pml4t pgTable : Nat) : Memory × Nat :=
  let pdpt := pgTable
  let mem := mem.write (pml4t + 8 * 0) (pdpt ||| tableFlags)
  let mem := mem.write (pml4t + 8 * 256) (pdpt ||| tableFlags)
  let low := (List.range 4).foldl (fillTable pdpt) (mem, add64 pgTable 0x1000, 0)
  (low.1, low.2.1)

/-- The part for the kernel: the memory, `PDPT` and `PG_TABLE` behind it. -/
def mapKernel (mem : Memory) (pml4t pgTable : Nat) : Memory × Nat × Nat :=
  let pdpt := pgTable
  let pdt := add64 pgTable 0x1000
  let mem := mem.write (pml4t + 8 * 511) (pdpt ||| tableFlags)
  let mem := mem.write (pdpt + 8 * 510) (pdt ||| tableFlags)
  (fillPages pdt 2 mem 0, pdpt, add64 pdt 0x1000)

/-- `(FrameBufferSize + 0x1fffff) / 0x200000`. -/
def frameBufferEntries (frameBufferSize : Nat) : Nat := add64 frameBufferSize 0x1fffff / 0x200000

/-- The part for the frame buffer. -/
def mapFrameBuffer (mem : Memory) (pdpt pgTable frameBufferBase frameBufferSize : Nat) : Memory :=
  let pdt := pgTable
  let mem := mem.write (pdpt + 8 * 511) (pdt ||| tableFlags)
  fillPages pdt (frameBufferEntries frameBufferSize) mem frameBufferBase

/-- `CreatePage`; `Gop->Mode` has the base and the size of the frame buffer. -/
def createPage (setMem : SetMem) (mem : Memory) (frameBufferBase frameBufferSize pgTable : Nat) :
    Memory :=
  let pml4t := pgTable
  let low := mapLow (setMem.fill mem pgTable (9 * 0x1000) 0) pml4t (add64 pgTable 0x1000)
  let kernel := mapKernel low.1 pml4t low.2
  mapFrameBuffer kernel.1 kernel.2.1 kernel.2.2 frameBufferBase frameBufferSize

end CreatePage

/-! ## A block of tables -/

open CreatePage

/-- Nine pages from `pg` on hold the words `f`, by page and entry; the rest of the memory is
that of `mem₀`. -/
structure Built (mem₀ : Memory) (pg : Nat) (mem : Memory) (f : Nat → Nat → Nat) : Prop where
  entry : ∀ t < 9, ∀ i < 512, mem (pg + 0x1000 * t + 8 * i) = f t i
  frame : ∀ a, a < pg ∨ pg + 0x9000 ≤ a → mem a = mem₀ a

/-- The words `f` with entry `i` of page `t` replaced. -/
def withEntry (f : Nat → Nat → Nat) (t i word : Nat) : Nat → Nat → Nat :=
  fun t' i' => if t' = t ∧ i' = i then word else f t' i'

/-- The words `f` with the first `n` entries of page `t` leading to the pages from `addr` on. -/
def withPages (f : Nat → Nat → Nat) (t n addr : Nat) : Nat → Nat → Nat :=
  fun t' i' => if t' = t ∧ i' < n then (addr + i' * 0x200000) ||| pageFlags else f t' i'

namespace Built

variable {mem₀ mem : Memory} {pg t i : Nat} {f : Nat → Nat → Nat}

theorem setMem (setMem : SetMem) (mem₀ : Memory) (pg : Nat) :
    Built mem₀ pg (setMem.fill mem₀ pg (9 * 0x1000) 0) fun _ _ => 0 := by
  constructor
  · intro t ht i hi
    exact setMem.inside _ _ _ _ _ (by omega) (by omega)
  · intro a ha
    exact setMem.outside _ _ _ _ _ ha

theorem write (h : Built mem₀ pg mem f) {a : Nat} (t i : Nat) (ht : t < 9) (hi : i < 512)
    (ha : a = pg + 0x1000 * t + 8 * i) (word : Nat) :
    Built mem₀ pg (mem.write a word) (withEntry f t i word) := by
  subst ha
  constructor
  · intro t' ht' i' hi'
    unfold withEntry
    by_cases heq : t' = t ∧ i' = i
    · rw [if_pos heq, heq.1, heq.2]
      exact Function.update_self ..
    · rw [if_neg heq, ← h.entry t' ht' i' hi']
      exact Function.update_of_ne (by omega) ..
  · intro a ha
    rw [← h.frame a ha]
    exact Function.update_of_ne (by omega) ..

theorem withPages_zero (f : Nat → Nat → Nat) (t addr : Nat) : withPages f t 0 addr = f := by
  funext t' i'
  exact if_neg fun h => Nat.not_lt_zero i' h.2

theorem withPages_succ (f : Nat → Nat → Nat) (t n addr : Nat) :
    withEntry (withPages f t n addr) t n ((addr + n * 0x200000) ||| pageFlags) =
      withPages f t (n + 1) addr := by
  funext t' i'
  simp only [withPages, withEntry]
  by_cases heq : t' = t ∧ i' = n
  · rw [if_pos heq, if_pos ⟨heq.1, by omega⟩, heq.2]
  · rw [if_neg heq]
    by_cases hlt : t' = t ∧ i' < n
    · rw [if_pos hlt, if_pos ⟨hlt.1, by omega⟩]
    · rw [if_neg hlt, if_neg (by omega)]

/-- The loop over `pdt_index`. -/
theorem fillPdt (h : Built mem₀ pg mem f) (pdt addr t : Nat) (ht : t < 9)
    (hpdt : pdt = pg + 0x1000 * t) {n : Nat} (hn : n ≤ 512)
    (haddr : addr + n * 0x200000 < wordSize) :
    Built mem₀ pg (CreatePage.fillPdt pdt n (mem, addr)).1 (withPages f t n addr) ∧
      (CreatePage.fillPdt pdt n (mem, addr)).2 = addr + n * 0x200000 := by
  induction n with
  | zero =>
      rw [withPages_zero, Nat.zero_mul, Nat.add_zero]
      exact ⟨h, rfl⟩
  | succ n ih =>
      have hsum : addr + n * 0x200000 + 0x200000 = addr + (n + 1) * 0x200000 := by omega
      have hlt : addr + n * 0x200000 + 0x200000 < wordSize := by
        rw [hsum]
        exact haddr
      obtain ⟨hbuilt, hend⟩ := ih (by omega) (Nat.lt_of_le_of_lt (Nat.le_add_right _ _) hlt)
      have hnext : add64 (addr + n * 0x200000) 0x200000 = addr + (n + 1) * 0x200000 := by
        rw [add64_of_lt hlt]
        exact hsum
      rw [fillPdt_succ, ← withPages_succ]
      unfold fillEntry
      rw [hend]
      exact ⟨hbuilt.write t n ht (by omega) (by rw [hpdt]) _, hnext⟩

end Built

/-- The words `f` with the first `n` entries of page 1 leading to the pages from 2 on, and the
entries of these to the first `n` GiB. -/
def withTables (f : Nat → Nat → Nat) (pg n : Nat) : Nat → Nat → Nat :=
  fun t i =>
    if t = 1 ∧ i < n then (pg + 0x1000 * (2 + i)) ||| tableFlags
    else if 2 ≤ t ∧ t < 2 + n ∧ i < 512 then ((t - 2) * 0x40000000 + i * 0x200000) ||| pageFlags
    else f t i

theorem withTables_zero (f : Nat → Nat → Nat) (pg : Nat) : withTables f pg 0 = f := by
  funext t i
  unfold withTables
  rw [if_neg (by omega), if_neg (by omega)]

theorem withTables_succ (f : Nat → Nat → Nat) (pg n : Nat) :
    withPages (withEntry (withTables f pg n) 1 n ((pg + 0x1000 * (2 + n)) ||| tableFlags)) (2 + n)
      512 (n * 0x40000000) = withTables f pg (n + 1) := by
  funext t i
  simp only [withPages, withEntry, withTables]
  by_cases ht : t = 2 + n ∧ i < 512
  · rw [if_pos ht, if_neg (by omega), if_pos (by omega), ht.1, Nat.add_sub_cancel_left]
  · rw [if_neg ht]
    by_cases hn : t = 1 ∧ i = n
    · rw [if_pos hn, if_pos (by omega), hn.2]
    · rw [if_neg hn]
      by_cases hlt : t = 1 ∧ i < n
      · rw [if_pos hlt, if_pos (by omega)]
      · have hlt' : ¬ (t = 1 ∧ i < n + 1) := by omega
        rw [if_neg hlt, if_neg hlt']
        by_cases hin : 2 ≤ t ∧ t < 2 + n ∧ i < 512
        · rw [if_pos hin, if_pos (by omega)]
        · rw [if_neg hin, if_neg (by omega)]

/-- The words `CreatePage` leaves in its nine pages. -/
def bootWords (pg frameBufferBase pages : Nat) : Nat → Nat → Nat :=
  let f := withEntry (fun _ _ => 0) 0 0 ((pg + 0x1000) ||| tableFlags)
  let f := withEntry f 0 256 ((pg + 0x1000) ||| tableFlags)
  let f := withTables f pg 4
  let f := withEntry f 0 511 ((pg + 0x6000) ||| tableFlags)
  let f := withEntry f 6 510 ((pg + 0x7000) ||| tableFlags)
  let f := withPages f 7 2 0
  let f := withEntry f 6 511 ((pg + 0x8000) ||| tableFlags)
  withPages f 8 pages frameBufferBase

/-- The loop over `pdpt_index`. -/
theorem Built.fillTables {mem₀ mem : Memory} {pg : Nat} {f : Nat → Nat → Nat}
    (h : Built mem₀ pg mem f) (hpg : pg + 0x9000 ≤ wordSize) {n : Nat} (hn : n ≤ 4) :
    ∃ mem', (List.range n).foldl (fillTable (pg + 0x1000)) (mem, pg + 0x2000, 0) =
        (mem', pg + 0x1000 * (2 + n), n * 0x40000000) ∧
      Built mem₀ pg mem' (withTables f pg n) := by
  induction n with
  | zero =>
      rw [withTables_zero]
      exact ⟨mem, rfl, h⟩
  | succ n ih =>
      obtain ⟨mem', hloop, hbuilt⟩ := ih (by omega)
      have hentry := hbuilt.write (a := pg + 0x1000 + 8 * n) 1 n (by omega) (by omega) (by omega)
        ((pg + 0x1000 * (2 + n)) ||| tableFlags)
      have haddr : n * 0x40000000 + 512 * 0x200000 < wordSize := by
        unfold wordSize
        omega
      obtain ⟨hfill, hend⟩ := hentry.fillPdt _ _ (2 + n) (by omega) rfl (le_refl 512) haddr
      have hnext : add64 (pg + 0x1000 * (2 + n)) 0x1000 = pg + 0x1000 * (2 + (n + 1)) := by
        rw [add64_of_lt (by unfold wordSize at hpg ⊢; omega)]
        omega
      have hsum : n * 0x40000000 + 512 * 0x200000 = (n + 1) * 0x40000000 := by omega
      rw [withTables_succ] at hfill
      refine ⟨_, ?_, hfill⟩
      rw [List.range_succ, List.foldl_append, hloop, List.foldl_cons, List.foldl_nil]
      unfold fillTable
      simp only [hnext, hend, hsum]

section

variable {mem₀ mem : Memory} {pg : Nat} {f : Nat → Nat → Nat}

/-- `PG_TABLE` moves on by a page. -/
theorem add64_page (hpg : pg + 0x9000 ≤ wordSize) {x y z : Nat} (hx : x = pg + y)
    (hz : z = pg + (y + 0x1000)) (hy : y < 0x8000) : add64 x 0x1000 = z := by
  rw [hx, hz, add64_of_lt (by unfold wordSize at hpg ⊢; omega), Nat.add_assoc]

theorem Built.mapLow (h : Built mem₀ pg mem f) (hpg : pg + 0x9000 ≤ wordSize) :
    ∃ mem', CreatePage.mapLow mem pg (pg + 0x1000) = (mem', pg + 0x6000) ∧
      Built mem₀ pg mem' (withTables (withEntry (withEntry f 0 0 ((pg + 0x1000) ||| tableFlags))
        0 256 ((pg + 0x1000) ||| tableFlags)) pg 4) := by
  have hnext : add64 (pg + 0x1000) 0x1000 = pg + 0x2000 :=
    add64_page hpg (y := 0x1000) (by omega) (by omega) (by decide)
  have hentry₀ := h.write (a := pg + 8 * 0) 0 0 (by decide) (by decide) (by omega)
    ((pg + 0x1000) ||| tableFlags)
  have hentry := hentry₀.write (a := pg + 8 * 256) 0 256 (by decide) (by decide) (by omega)
    ((pg + 0x1000) ||| tableFlags)
  obtain ⟨mem', hloop, hbuilt⟩ := hentry.fillTables hpg (le_refl 4)
  refine ⟨mem', ?_, hbuilt⟩
  unfold CreatePage.mapLow
  dsimp only
  rw [hnext, hloop]

theorem Built.mapKernel (h : Built mem₀ pg mem f) (hpg : pg + 0x9000 ≤ wordSize) :
    ∃ mem', CreatePage.mapKernel mem pg (pg + 0x6000) = (mem', pg + 0x6000, pg + 0x8000) ∧
      Built mem₀ pg mem' (withPages (withEntry (withEntry f 0 511 ((pg + 0x6000) ||| tableFlags))
        6 510 ((pg + 0x7000) ||| tableFlags)) 7 2 0) := by
  have hnext : add64 (pg + 0x6000) 0x1000 = pg + 0x7000 :=
    add64_page hpg (y := 0x6000) (by omega) (by omega) (by decide)
  have hnext' : add64 (pg + 0x7000) 0x1000 = pg + 0x8000 :=
    add64_page hpg (y := 0x7000) (by omega) (by omega) (by decide)
  have hentry₀ := h.write (a := pg + 8 * 511) 0 511 (by decide) (by decide) (by omega)
    ((pg + 0x6000) ||| tableFlags)
  have hentry := hentry₀.write (a := pg + 0x6000 + 8 * 510) 6 510 (by decide) (by decide)
    (by omega) ((pg + 0x7000) ||| tableFlags)
  obtain ⟨hfill, -⟩ := hentry.fillPdt (pg + 0x7000) 0 7 (by decide) (by omega)
    (show 2 ≤ 512 by decide) (show 0 + 2 * 0x200000 < wordSize by decide)
  refine ⟨_, ?_, hfill⟩
  unfold CreatePage.mapKernel
  dsimp only
  rw [hnext, hnext', fillPages]

end

/-- The number of 2 MiB pages of the frame buffer. -/
def frameBufferPages (frameBufferSize : Nat) : Nat := (frameBufferSize + 0x1fffff) / 0x200000

theorem frameBufferPages_le {frameBufferSize : Nat} (hsize : frameBufferSize ≤ 0x40000000) :
    frameBufferPages frameBufferSize ≤ 512 := by
  unfold frameBufferPages
  omega

theorem frameBufferEntries_eq {frameBufferSize : Nat} (hsize : frameBufferSize ≤ 0x40000000) :
    frameBufferEntries frameBufferSize = frameBufferPages frameBufferSize := by
  have hlt : frameBufferSize + 0x1fffff < wordSize :=
    Nat.lt_of_le_of_lt (Nat.add_le_add_right hsize _) (by decide)
  rw [frameBufferEntries, add64_of_lt hlt]
  rfl

theorem Built.mapFrameBuffer {mem₀ mem : Memory} {pg : Nat} {f : Nat → Nat → Nat}
    (h : Built mem₀ pg mem f) {frameBufferBase frameBufferSize : Nat}
    (hbase : frameBufferBase < 2 ^ 51) (hsize : frameBufferSize ≤ 0x40000000) :
    Built mem₀ pg
      (CreatePage.mapFrameBuffer mem (pg + 0x6000) (pg + 0x8000) frameBufferBase frameBufferSize)
      (withPages (withEntry f 6 511 ((pg + 0x8000) ||| tableFlags)) 8
        (frameBufferPages frameBufferSize) frameBufferBase) := by
  have hpages := frameBufferPages_le hsize
  have hcount := frameBufferEntries_eq hsize
  have hentry := h.write (a := pg + 0x6000 + 8 * 511) 6 511 (by decide) (by decide) (by omega)
    ((pg + 0x8000) ||| tableFlags)
  obtain ⟨hfill, -⟩ := hentry.fillPdt (pg + 0x8000) frameBufferBase 8 (by decide) (by omega)
    hpages (by unfold wordSize; omega)
  unfold CreatePage.mapFrameBuffer
  dsimp only
  rw [hcount, fillPages]
  exact hfill

theorem createPage_built (setMem : SetMem) (mem : Memory)
    {frameBufferBase frameBufferSize pgTable : Nat} (hpg : pgTable + 0x9000 ≤ wordSize)
    (hbase : frameBufferBase < 2 ^ 51) (hsize : frameBufferSize ≤ 0x40000000) :
    Built mem pgTable (createPage setMem mem frameBufferBase frameBufferSize pgTable)
      (bootWords pgTable frameBufferBase (frameBufferPages frameBufferSize)) := by
  have hnext : add64 pgTable 0x1000 = pgTable + 0x1000 :=
    add64_page hpg (y := 0) (by omega) (by omega) (by decide)
  obtain ⟨mem₁, hlow, h₁⟩ := (Built.setMem setMem mem pgTable).mapLow hpg
  obtain ⟨mem₂, hkernel, h₂⟩ := h₁.mapKernel hpg
  unfold createPage
  dsimp only
  rw [hnext, hlow, hkernel]
  exact h₂.mapFrameBuffer hbase hsize

/-! ## The walks through the tables -/

/-- Where the walk along three indices ends. -/
def bootWalk (frameBufferBase pages i j k : Nat) : Option Nat :=
  if i = 0 ∨ i = 256 then
    if j < 4 then some (j * 0x40000000 + k * 0x200000) else none
  else if i = 511 then
    if j = 510 then
      if k < 2 then some (k * 0x200000) else none
    else if j = 511 then
      if k < pages then some (frameBufferBase + k * 0x200000) else none
    else none
  else none

section

variable (pg frameBufferBase pages : Nat)

theorem bootWords_pml4t (i : Nat) : bootWords pg frameBufferBase pages 0 i =
    if i = 0 ∨ i = 256 then (pg + 0x1000) ||| tableFlags
    else if i = 511 then (pg + 0x6000) ||| tableFlags
    else 0 := by
  by_cases h₀ : i = 0
  · subst h₀
    rfl
  · by_cases h₂₅₆ : i = 256
    · subst h₂₅₆
      rfl
    · simp [bootWords, withPages, withEntry, withTables, h₀, h₂₅₆]

theorem bootWords_pdpt (i : Nat) : bootWords pg frameBufferBase pages 1 i =
    if i < 4 then (pg + 0x1000 * (2 + i)) ||| tableFlags else 0 := by
  simp [bootWords, withPages, withEntry, withTables]

theorem bootWords_pdt {j i : Nat} (hj : j < 4) (hi : i < 512) :
    bootWords pg frameBufferBase pages (2 + j) i =
      (j * 0x40000000 + i * 0x200000) ||| pageFlags := by
  have hne : 2 + j ≠ 8 ∧ 2 + j ≠ 7 ∧ 2 + j ≠ 6 ∧ 2 + j ≠ 0 ∧ 2 + j ≠ 1 := by omega
  have hlt : 2 + j < 2 + 4 := by omega
  simp [bootWords, withPages, withEntry, withTables, hne, hlt, hi]

theorem bootWords_kernelPdpt (i : Nat) : bootWords pg frameBufferBase pages 6 i =
    if i = 510 then (pg + 0x7000) ||| tableFlags
    else if i = 511 then (pg + 0x8000) ||| tableFlags
    else 0 := by
  by_cases h : i = 510
  · subst h
    rfl
  · simp [bootWords, withPages, withEntry, withTables, h]

theorem bootWords_kernelPdt (i : Nat) : bootWords pg frameBufferBase pages 7 i =
    if i < 2 then (i * 0x200000) ||| pageFlags else 0 := by
  simp [bootWords, withPages, withEntry, withTables]

theorem bootWords_frameBuffer (i : Nat) : bootWords pg frameBufferBase pages 8 i =
    if i < pages then (frameBufferBase + i * 0x200000) ||| pageFlags else 0 := by
  simp [bootWords, withPages, withEntry, withTables]

end

theorem tableLink (table : Nat) (hlt : table < wordSize) (halign : table % ptSize = 0) :
    entryLink (table ||| tableFlags) = some table :=
  entryLink_or hlt halign (by decide) (by decide)

theorem pageLink (page : Nat) (hlt : page < wordSize) (halign : page % ptSize = 0) :
    entryLink (page ||| pageFlags) = some page :=
  entryLink_or hlt halign (by decide) (by decide)

namespace Built

variable {mem₀ mem : Memory} {pg frameBufferBase pages : Nat}

/-- A word of one of the nine tables. -/
theorem tableWord {f : Nat → Nat → Nat} (h : Built mem₀ pg mem f) (table t : Nat)
    (ht : t < 9) (htable : table = pg + 0x1000 * t) (i : Fin 512) :
    mem.tableWord table i = f t i := by
  rw [Memory.tableWord, htable, h.entry t ht i i.isLt]

theorem walk_pdt (h : Built mem₀ pg mem (bootWords pg frameBufferBase pages)) {j : Nat}
    (hj : j < 4) (k : Fin 512) :
    mem.walk (pg + 0x1000 * (2 + j)) [k] = some (j * 0x40000000 + (k : Nat) * 0x200000) := by
  have hk := k.isLt
  have hword := h.tableWord _ (2 + j) (by omega) rfl k
  rw [bootWords_pdt _ _ _ hj k.isLt] at hword
  have hlink := pageLink (j * 0x40000000 + (k : Nat) * 0x200000)
    (by unfold wordSize; omega) (by unfold ptSize; omega)
  rw [← hword] at hlink
  rw [Memory.walk_of_entryLink hlink]
  rfl

theorem walk_kernelPdt (h : Built mem₀ pg mem (bootWords pg frameBufferBase pages))
    (k : Fin 512) :
    mem.walk (pg + 0x7000) [k] = if (k : Nat) < 2 then some ((k : Nat) * 0x200000) else none := by
  have hword := h.tableWord (pg + 0x7000) 7 (by decide) (by omega) k
  rw [bootWords_kernelPdt] at hword
  split
  · next hk =>
      rw [if_pos hk] at hword
      have hlink := pageLink ((k : Nat) * 0x200000) (by unfold wordSize; omega)
        (by unfold ptSize; omega)
      rw [← hword] at hlink
      rw [Memory.walk_of_entryLink hlink]
      rfl
  · next hk =>
      rw [if_neg hk] at hword
      exact Memory.walk_of_entryLink_none (hword ▸ entryLink_zero) _

theorem walk_frameBuffer (h : Built mem₀ pg mem (bootWords pg frameBufferBase pages))
    (hbase : frameBufferBase < 2 ^ 51) (halign : frameBufferBase % 0x200000 = 0) (k : Fin 512) :
    mem.walk (pg + 0x8000) [k] =
      if (k : Nat) < pages then some (frameBufferBase + (k : Nat) * 0x200000) else none := by
  have hk := k.isLt
  have hword := h.tableWord (pg + 0x8000) 8 (by decide) (by omega) k
  rw [bootWords_frameBuffer] at hword
  split
  · next hk =>
      rw [if_pos hk] at hword
      have hlink := pageLink (frameBufferBase + (k : Nat) * 0x200000)
        (by unfold wordSize; omega) (by unfold ptSize; omega)
      rw [← hword] at hlink
      rw [Memory.walk_of_entryLink hlink]
      rfl
  · next hk =>
      rw [if_neg hk] at hword
      exact Memory.walk_of_entryLink_none (hword ▸ entryLink_zero) _

variable (hpg : pg + 0x9000 ≤ wordSize) (halign : pg % ptSize = 0)
include hpg halign

theorem walk_pdpt (h : Built mem₀ pg mem (bootWords pg frameBufferBase pages)) (j k : Fin 512) :
    mem.walk (pg + 0x1000) [j, k] =
      if (j : Nat) < 4 then some ((j : Nat) * 0x40000000 + (k : Nat) * 0x200000) else none := by
  have hword := h.tableWord (pg + 0x1000) 1 (by decide) (by omega) j
  rw [bootWords_pdpt] at hword
  split
  · next hj =>
      rw [if_pos hj] at hword
      have hlink := tableLink (pg + 0x1000 * (2 + j))
        (by unfold wordSize at hpg ⊢; omega) (by unfold ptSize at halign ⊢; omega)
      rw [← hword] at hlink
      rw [Memory.walk_of_entryLink hlink, h.walk_pdt hj]
  · next hj =>
      rw [if_neg hj] at hword
      exact Memory.walk_of_entryLink_none (hword ▸ entryLink_zero) _

theorem walk_kernelPdpt (h : Built mem₀ pg mem (bootWords pg frameBufferBase pages))
    (hbase : frameBufferBase < 2 ^ 51) (hpage : frameBufferBase % 0x200000 = 0) (j k : Fin 512) :
    mem.walk (pg + 0x6000) [j, k] =
      if (j : Nat) = 510 then if (k : Nat) < 2 then some ((k : Nat) * 0x200000) else none
      else if (j : Nat) = 511 then
        if (k : Nat) < pages then some (frameBufferBase + (k : Nat) * 0x200000) else none
      else none := by
  have hword := h.tableWord (pg + 0x6000) 6 (by decide) (by omega) j
  rw [bootWords_kernelPdpt] at hword
  by_cases hkernel : (j : Nat) = 510
  · rw [if_pos hkernel] at hword ⊢
    have hlink := tableLink (pg + 0x7000)
      (by unfold wordSize at hpg ⊢; omega) (by unfold ptSize at halign ⊢; omega)
    rw [← hword] at hlink
    rw [Memory.walk_of_entryLink hlink, h.walk_kernelPdt]
  rw [if_neg hkernel] at hword ⊢
  by_cases hframe : (j : Nat) = 511
  · rw [if_pos hframe] at hword ⊢
    have hlink := tableLink (pg + 0x8000)
      (by unfold wordSize at hpg ⊢; omega) (by unfold ptSize at halign ⊢; omega)
    rw [← hword] at hlink
    rw [Memory.walk_of_entryLink hlink, h.walk_frameBuffer hbase hpage]
  · rw [if_neg hframe] at hword ⊢
    exact Memory.walk_of_entryLink_none (hword ▸ entryLink_zero) _

theorem walk_eq (h : Built mem₀ pg mem (bootWords pg frameBufferBase pages))
    (hbase : frameBufferBase < 2 ^ 51) (hpage : frameBufferBase % 0x200000 = 0)
    (i j k : Fin 512) : mem.walk pg [i, j, k] = bootWalk frameBufferBase pages i j k := by
  have hword := h.tableWord pg 0 (by decide) (by omega) i
  rw [bootWords_pml4t] at hword
  unfold bootWalk
  by_cases hlow : (i : Nat) = 0 ∨ (i : Nat) = 256
  · rw [if_pos hlow] at hword ⊢
    have hlink := tableLink (pg + 0x1000)
      (by unfold wordSize at hpg ⊢; omega) (by unfold ptSize at halign ⊢; omega)
    rw [← hword] at hlink
    rw [Memory.walk_of_entryLink hlink, h.walk_pdpt hpg halign]
  rw [if_neg hlow] at hword ⊢
  by_cases hkernel : (i : Nat) = 511
  · rw [if_pos hkernel] at hword ⊢
    have hlink := tableLink (pg + 0x6000)
      (by unfold wordSize at hpg ⊢; omega) (by unfold ptSize at halign ⊢; omega)
    rw [← hword] at hlink
    rw [Memory.walk_of_entryLink hlink, h.walk_kernelPdpt hpg halign hbase hpage]
  · rw [if_neg hkernel] at hword ⊢
    exact Memory.walk_of_entryLink_none (hword ▸ entryLink_zero) _

end Built

namespace Memory

/-- The walk for an address comes to a page, and `to_physical_address` answers `paddr`. -/
def TranslatesTo (mem : Memory) (pml4t vaddr paddr : Nat) : Prop :=
  (mem.walk pml4t (indexPath vaddr)).isSome ∧ mem.toPhysicalAddress pml4t vaddr = paddr

/-- An entry on the walk for an address is not present: `to_physical_address` answers `NULL`. -/
def Untranslated (mem : Memory) (pml4t vaddr : Nat) : Prop :=
  mem.walk pml4t (indexPath vaddr) = none ∧ mem.toPhysicalAddress pml4t vaddr = 0

theorem translatesTo_of_walk {mem : Memory} {pml4t vaddr paddr page : Nat}
    (hwalk : mem.walk pml4t (indexPath vaddr) = some page) (hsum : page + vaddr % pgSize = paddr)
    (hlt : paddr < wordSize) : mem.TranslatesTo pml4t vaddr paddr := by
  refine ⟨by rw [hwalk]; rfl, ?_⟩
  subst hsum
  rw [toPhysicalAddress_eq, hwalk]
  exact add64_of_lt hlt

theorem untranslated_of_walk {mem : Memory} {pml4t vaddr : Nat}
    (hwalk : mem.walk pml4t (indexPath vaddr) = none) : mem.Untranslated pml4t vaddr :=
  ⟨hwalk, toPhysicalAddress_of_none hwalk⟩

end Memory

/-- The walk of the kernel through the tables of the boot loader. -/
theorem Built.walk_indexPath {mem₀ mem : Memory} {pg frameBufferBase pages : Nat}
    (h : Built mem₀ pg mem (bootWords pg frameBufferBase pages)) (hpg : pg + 0x9000 ≤ wordSize)
    (halign : pg % ptSize = 0) (hbase : frameBufferBase < 2 ^ 51)
    (hpage : frameBufferBase % 0x200000 = 0) (vaddr : Nat) :
    mem.walk pg (Memory.indexPath vaddr) =
      bootWalk frameBufferBase pages (vaddr / 2 ^ 39 % 512) (vaddr / 2 ^ 30 % 512)
        (vaddr / 2 ^ 21 % 512) := by
  rw [← getField_eq, ← getField_eq, ← getField_eq]
  exact h.walk_eq hpg halign hbase hpage _ _ _

/-- The tables that `CreatePage` builds, read by the walk of the kernel: the low 4 GiB at two
places, the 4 MiB of the kernel and the frame buffer are translated as the comment says, no
other canonical address is (the last page of the frame buffer is mapped whole), and only the
nine pages have been written. -/
theorem createPage_translates (setMem : SetMem) (mem : Memory)
    {pgTable frameBufferBase frameBufferSize : Nat} (halign : pgTable % 0x1000 = 0)
    (hpg : pgTable + 9 * 0x1000 ≤ 2 ^ 64) (hpage : frameBufferBase % 0x200000 = 0)
    (hbase : frameBufferBase < 2 ^ 51) (hsize : frameBufferSize ≤ 0x40000000) {mem' : Memory}
    (hmem' : mem' = createPage setMem mem frameBufferBase frameBufferSize pgTable) :
    (∀ v < 0x100000000, mem'.TranslatesTo pgTable v v ∧
      mem'.TranslatesTo pgTable (0xffff800000000000 + v) v) ∧
    (∀ v < 0x400000, mem'.TranslatesTo pgTable (0xffffffff80000000 + v) v) ∧
    (∀ o < frameBufferSize,
      mem'.TranslatesTo pgTable (0xffffffffc0000000 + o) (frameBufferBase + o)) ∧
    (∀ a, Memory.Canonical a → 0x100000000 ≤ a →
      ¬ (0xffff800000000000 ≤ a ∧ a < 0xffff800000000000 + 0x100000000) →
      ¬ (0xffffffff80000000 ≤ a ∧ a < 0xffffffff80000000 + 0x400000) →
      ¬ (0xffffffffc0000000 ≤ a ∧
        a < 0xffffffffc0000000 + (frameBufferSize + 0x1fffff) / 0x200000 * 0x200000) →
      mem'.Untranslated pgTable a) ∧
    ∀ a, a < pgTable ∨ pgTable + 9 * 0x1000 ≤ a → mem' a = mem a := by
  subst hmem'
  have hbuilt := createPage_built setMem mem hpg hbase hsize
  have hwalk := hbuilt.walk_indexPath hpg halign hbase hpage
  refine ⟨fun v hv => ⟨?_, ?_⟩, fun v hv => ?_, fun o ho => ?_, fun a ha h₀ h₁ h₂ h₃ => ?_,
    hbuilt.frame⟩
  · have hi : v / 2 ^ 39 % 512 = 0 := by omega
    have hj : v / 2 ^ 30 % 512 < 4 := by omega
    have hbits := hwalk v
    rw [bootWalk, if_pos (Or.inl hi), if_pos hj] at hbits
    apply Memory.translatesTo_of_walk hbits
    · unfold pgSize
      omega
    · unfold wordSize
      omega
  · have hi : (0xffff800000000000 + v) / 2 ^ 39 % 512 = 256 := by omega
    have hj : (0xffff800000000000 + v) / 2 ^ 30 % 512 < 4 := by omega
    have hbits := hwalk (0xffff800000000000 + v)
    rw [bootWalk, if_pos (Or.inr hi), if_pos hj] at hbits
    apply Memory.translatesTo_of_walk hbits
    · unfold pgSize
      omega
    · unfold wordSize
      omega
  · have hi : (0xffffffff80000000 + v) / 2 ^ 39 % 512 = 511 := by omega
    have hj : (0xffffffff80000000 + v) / 2 ^ 30 % 512 = 510 := by omega
    have hk : (0xffffffff80000000 + v) / 2 ^ 21 % 512 < 2 := by omega
    have hbits := hwalk (0xffffffff80000000 + v)
    rw [bootWalk, if_neg (by omega), if_pos hi, if_pos hj, if_pos hk] at hbits
    apply Memory.translatesTo_of_walk hbits
    · unfold pgSize
      omega
    · unfold wordSize
      omega
  · have hi : (0xffffffffc0000000 + o) / 2 ^ 39 % 512 = 511 := by omega
    have hj : (0xffffffffc0000000 + o) / 2 ^ 30 % 512 = 511 := by omega
    have hk : (0xffffffffc0000000 + o) / 2 ^ 21 % 512 < frameBufferPages frameBufferSize := by
      unfold frameBufferPages
      omega
    have hbits := hwalk (0xffffffffc0000000 + o)
    rw [bootWalk, if_neg (by omega), if_pos hi, if_neg (by omega), if_pos hj, if_pos hk] at hbits
    apply Memory.translatesTo_of_walk hbits
    · unfold pgSize
      omega
    · unfold wordSize
      omega
  · apply Memory.untranslated_of_walk
    rw [hwalk a]
    unfold Memory.Canonical at ha
    unfold bootWalk frameBufferPages
    split
    · rw [if_neg (by omega)]
    · split
      · split
        · rw [if_neg (by omega)]
        · split
          · rw [if_neg (by omega)]
          · rfl
      · rfl

/-- Firmware that writes what it is asked to. -/
def setWords : SetMem where
  fill mem buffer size value a :=
    if buffer ≤ a ∧ a < buffer + size then value.toNat * 0x0101010101010101 else mem a
  inside _ _ _ _ _ hlo hhi := if_pos ⟨hlo, hhi⟩
  outside _ _ _ _ _ hout := if_neg (by omega)

/-- The tables of the machine the kernel is started on, whose frame buffer of 800 x 600 pixels
ends inside a page. -/
theorem createPage_translates_frameBuffer :
    (createPage setWords (fun _ => 0) 0x80000000 1920000 0x510000).TranslatesTo 0x510000
        0xffffffffc01d4bff 0x801d4bff ∧
      (createPage setWords (fun _ => 0) 0x80000000 1920000 0x510000).Untranslated 0x510000
        0xffffffffc0200000 := by
  have h := @createPage_translates setWords (fun _ => 0) 0x510000 0x80000000 1920000 (by decide)
    (by decide) (by decide) (by decide) (by decide) _ rfl
  refine ⟨h.2.2.1 0x1d4bff (by decide), h.2.2.2.1 _ (Or.inr (by decide)) (by decide) (by decide)
    (by decide) (by decide)⟩

end ClayFigure
