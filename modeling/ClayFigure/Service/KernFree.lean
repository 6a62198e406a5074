/-
# Freeing pages over the life of a process

A process allocates pages, touches some of them and frees them again, while the rest of
the kernel uses the frame allocator. The range tables split the user addresses among them,
every user mapping owns a frame, and from this follows which pages `kern_free_page` can
take back: only those that were touched, and only while the tables have room.
-/

import ClayFigure.Mem.VmmRuns
import ClayFigure.Service.KernMem

namespace ClayFigure

open ClayFigure.Math
open Memory (indexPath walk)

/-- `USER_VADDR_START`. -/
abbrev userVaddrStart : Nat := 0x800000

/-- `USER_STACK_VADDR_BASE`. -/
abbrev userStackVaddrBase : Nat := 0x7fffffe00000

/-- `user_vaddr_table_init`, given the arrays of `vmm_free` and `vmm_using`. -/
def userVaddrTableInit (freeBlocks usingBlocks : Nat → VmmBlock) : Vmm × Vmm :=
  let totalBlocks := 1024
  let vmmFree := Vmm.vmmStructInit freeBlocks totalBlocks
  let vmStart := userVaddrStart
  let vmSize := userStackVaddrBase - userVaddrStart
  ((vmmFree.vmmAddRange vmStart vmSize).2, Vmm.vmmStructInit usingBlocks totalBlocks)

namespace ProcMem

/-! ## Sets of whole pages -/

def Paged (S : Set Nat) : Prop := ∀ x y, x / pgSize = y / pgSize → x ∈ S → y ∈ S

theorem mem_page_iff {v x : Nat} (hv : v % pgSize = 0) : x ∈ page v ↔ x / pgSize = v / pgSize := by
  rw [page, Set.mem_Ico]
  unfold pgSize at *
  omega

theorem start_mem_page (v : Nat) : v ∈ page v := ⟨le_rfl, by unfold pgSize; omega⟩

theorem paged_page {v : Nat} (hv : v % pgSize = 0) : Paged (page v) := by
  intro x y hxy hx
  rw [mem_page_iff hv] at hx ⊢
  exact hxy.symm.trans hx

theorem disjoint_page {u v : Nat} (hu : u % pgSize = 0) (hv : v % pgSize = 0) (hne : u ≠ v) :
    Disjoint (page u) (page v) := by
  rw [Set.disjoint_left]
  intro x hxu hxv
  rw [mem_page_iff hu] at hxu
  rw [mem_page_iff hv] at hxv
  apply hne
  rw [← Nat.div_add_mod u pgSize, ← Nat.div_add_mod v pgSize, hu, hv, ← hxu, ← hxv]

theorem Paged.union {S T : Set Nat} (hS : Paged S) (hT : Paged T) : Paged (S ∪ T) :=
  fun x y hxy hx => hx.imp (hS x y hxy) (hT x y hxy)

theorem Paged.sdiff {S T : Set Nat} (hS : Paged S) (hT : Paged T) : Paged (S \ T) :=
  fun x y hxy hx => ⟨hS x y hxy hx.1, fun hy => hx.2 (hT y x hxy.symm hy)⟩

/-- A block of whole pages begins at a page. -/
theorem start_aligned {vmm : Vmm} (h : vmm.Compact) (hpaged : Paged vmm.addresses)
    {b : VmmBlock} (hb : b ∈ vmm.list) : b.start % pgSize = 0 := by
  by_contra hmod
  obtain ⟨pre, post, hlist⟩ := List.append_of_mem hb
  obtain ⟨-, -, hsize, hbelow, habove⟩ := h.split hlist
  have hmem : b.start ∈ vmm.addresses :=
    ⟨b.range, List.mem_map_of_mem hb, le_rfl, Nat.lt_add_of_pos_right hsize⟩
  -- the address before the block would be in the same page
  obtain ⟨r, hr, hlo, hhi⟩ := hpaged b.start (b.start - 1) (by unfold pgSize at *; omega) hmem
  obtain ⟨c, hc, rfl⟩ := List.mem_map.mp hr
  simp only [VmmBlock.range] at hlo hhi
  have hpos : 0 < b.start := Nat.pos_of_ne_zero fun hzero => hmod (by rw [hzero, Nat.zero_mod])
  rw [hlist] at hc
  rcases List.mem_append.mp hc with hc | hc
  · have := hbelow c hc
    omega
  · rcases List.mem_cons.mp hc with rfl | hc
    · omega
    · have := habove c hc
      omega

/-! ## Freeing one page -/

/-- The page has been touched: it has a frame. -/
def Touched (task : ProcMem) (v : Nat) : Prop :=
  task.memory.toPhysicalAddress task.pageDir v ≠ 0

instance (task : ProcMem) (v : Nat) : Decidable (task.Touched v) :=
  inferInstanceAs (Decidable (_ ≠ 0))

/-- What freeing a page has to do: the page moves back to `vmm_free`, it is unmapped and its
frame, if it had one, is given back. -/
structure Frees (task : ProcMem) (v : Nat) (t : ProcMem) : Prop where
  inUse : t.vmmUsing.addresses = task.vmmUsing.addresses \ page v
  free : t.vmmFree.addresses = task.vmmFree.addresses ∪ page v
  unmapped : ∀ a, Memory.Canonical a → t.memory.toPhysicalAddress task.pageDir a =
    if a / pgSize = v / pgSize then 0 else task.memory.toPhysicalAddress task.pageDir a
  frame : t.mem.freeFrames = if task.Touched v then
      insert (task.memory.toPhysicalAddress task.pageDir v / pgSize) task.mem.freeFrames
    else task.mem.freeFrames

/-- `kern_free_page` passes every `ASSERT` and does what it has to do. -/
def FreesPage (task : ProcMem) (v : Nat) : Prop :=
  ∃ t, task.kernFreePage v = some (.success, t) ∧ task.Frees v t

/-- `vmm_using` need not split a block while it is full, and `vmm_free` need not make one
while it is full. -/
def HasRoom (task : ProcMem) (v : Nat) : Prop :=
  ¬ (task.vmmUsing.totalBlocks ≤ task.vmmUsing.usingBlocks ∧
      ∃ b ∈ task.vmmUsing.list, b.start < v ∧ v + pgSize < b.start + b.size) ∧
    ¬ (task.vmmFree.totalBlocks ≤ task.vmmFree.usingBlocks ∧
      ∀ b ∈ task.vmmFree.list, b.start + b.size ≠ v ∧ v + pgSize ≠ b.start)

/-- The page was touched and the tables have room. -/
def CanFree (task : ProcMem) (v : Nat) : Prop := task.Touched v ∧ task.HasRoom v

/-- What holds of the memory of a process, given the live allocations of frames. -/
structure Sound (task : ProcMem) (held : List (Nat × Nat)) : Prop where
  tables : task.Tables
  cover : task.vmmFree.addresses ∪ task.vmmUsing.addresses =
    Set.Ico userVaddrStart userStackVaddrBase
  pagedFree : Paged task.vmmFree.addresses
  pagedUsing : Paged task.vmmUsing.addresses
  tree : Memory.PageTree task.memory task.pageDir
  frames : FrameInv ⟨task.mem, held⟩
  mapped : ∀ a < 2 ^ 47, ∀ f, task.memory.walk task.pageDir (indexPath a) = some f →
    (f, 1) ∈ held
  apart : ∀ a < 2 ^ 47, ∀ b < 2 ^ 47, ∀ f,
    task.memory.walk task.pageDir (indexPath a) = some f →
    task.memory.walk task.pageDir (indexPath b) = some f → a / pgSize = b / pgSize

variable {task t : ProcMem} {held : List (Nat × Nat)} {v : Nat}

/-- Without a frame the address handed to `free_physical_page` is `NULL`. -/
theorem kernFreePage_untouched (h : ¬ task.Touched v) : task.kernFreePage v = none := by
  unfold kernFreePage
  rw [not_not.mp h]
  rfl

namespace Sound

/-- A user mapping is to a frame held, so its address fits a word and is not `NULL`. -/
theorem frame_bounds (h : task.Sound held) {f : Nat} (hf : (f, 1) ∈ held) :
    f % pgSize = 0 ∧ 0 < f ∧ f + pgSize < wordSize := by
  have halign := h.frames.aligned _ hf
  have hin := h.frames.inside _ hf
  have hcap := task.mem.btmpBytesLen_le
  simp only at halign hin
  unfold wordSize pgSize at *
  omega

/-- The base of a page is mapped to the base of its frame. -/
theorem toPhysicalAddress_of_walk (h : task.Sound held) (hv : v < 2 ^ 47)
    (halign : v % pgSize = 0) {f : Nat}
    (hwalk : task.memory.walk task.pageDir (indexPath v) = some f) :
    task.memory.toPhysicalAddress task.pageDir v = f := by
  obtain ⟨-, -, hlt⟩ := h.frame_bounds (h.mapped v hv f hwalk)
  rw [Memory.toPhysicalAddress_eq, hwalk]
  simp only
  rw [halign, add64_of_lt (by unfold pgSize at hlt; omega), Nat.add_zero]

theorem touched_iff (h : task.Sound held) (hv : v < 2 ^ 47) (halign : v % pgSize = 0) :
    task.Touched v ↔ ∃ f, task.memory.walk task.pageDir (indexPath v) = some f ∧
      task.memory.toPhysicalAddress task.pageDir v = f := by
  unfold Touched
  cases hwalk : task.memory.walk task.pageDir (indexPath v) with
  | none =>
      rw [Memory.toPhysicalAddress_eq, hwalk]
      simp
  | some f =>
      rw [h.toPhysicalAddress_of_walk hv halign hwalk]
      obtain ⟨-, hpos, -⟩ := h.frame_bounds (h.mapped v hv f hwalk)
      exact iff_of_true hpos.ne' ⟨f, rfl, rfl⟩

/-- `kern_free_page` of a page that has a frame. -/
theorem kernFreePage_touched (h : task.Sound held) (hv : v < 2 ^ 47) (halign : v % pgSize = 0)
    {f : Nat} (hwalk : task.memory.walk task.pageDir (indexPath v) = some f) :
    ∃ memory mem, task.kernFreePage v = some (.success, { task with
          vmmFree := (task.vmmFree.vmmAddRange v pgSize).2
          vmmUsing := (task.vmmUsing.vmmRemoveRange v pgSize).2
          memory, mem }) ∧
      Memory.PageTree memory task.pageDir ∧
      (∀ path, path.length = 3 → memory.walk task.pageDir path =
        if path = indexPath v then none else task.memory.walk task.pageDir path) ∧
      mem.freeFrames = insert (f / pgSize) task.mem.freeFrames ∧
      FrameInv ⟨mem, held.erase (f, 1)⟩ := by
  have hf := h.mapped v hv f hwalk
  have hphys := h.toPhysicalAddress_of_walk hv halign hwalk
  obtain ⟨mem, hfree, -, hframes, -⟩ := h.frames.freePhysicalPage_live hf
  obtain ⟨memory, hunmap, htree, hwalks⟩ :=
    Memory.pageUnmap_walk h.tree (hv.trans (by decide)) hwalk
  refine ⟨memory, mem, ?_, htree, hwalks, ?_, ?_⟩
  · unfold kernFreePage
    simp only at hfree
    simp only [hphys, hfree, hunmap, Option.bind_eq_bind, Option.bind_some, Option.pure_def]
  · rw [hframes, allocFrames, Nat.Ico_succ_singleton, Finset.union_comm]
    rfl
  · have hstep : frameStep ⟨task.mem, held⟩ (.free f 1) = some ⟨mem, held.erase (f, 1)⟩ := by
      simp only [frameStep, hf, if_true]
      simp only at hfree
      rw [hfree]
    exact h.frames.free hstep

theorem inside (h : task.Sound held) (hsub : page v ⊆ task.vmmUsing.addresses) :
    userVaddrStart ≤ v ∧ v < userStackVaddrBase := by
  have hmem := Set.mem_union_right task.vmmFree.addresses (hsub (start_mem_page v))
  rw [h.cover] at hmem
  exact hmem

/-- A page in use can be freed just when it was touched and the tables have room. -/
theorem freesPage_iff (h : task.Sound held) (halign : v % pgSize = 0)
    (hsub : page v ⊆ task.vmmUsing.addresses) : task.FreesPage v ↔ task.CanFree v := by
  have hpg : 0 < pgSize := by decide
  have hlt : v < 2 ^ 47 := (h.inside hsub).2.trans (by decide)
  have hwrap : v + pgSize < wordSize := by
    unfold pgSize wordSize
    omega
  have hdisjoint : Disjoint (page v) task.vmmFree.addresses :=
    h.tables.disjoint.symm.mono_left hsub
  have hremove := h.tables.inUse.removeRange hwrap
  have hadd := h.tables.free.addRange hpg hwrap hdisjoint
  rw [CanFree, HasRoom, ← hremove.success_iff h.tables.inUse hpg hsub, ← hadd.success_iff]
  by_cases htouched : task.Touched v
  · obtain ⟨f, hwalk, hphys⟩ := (h.touched_iff hlt halign).mp htouched
    obtain ⟨memory, mem, heq, -, hwalks, hframes, -⟩ := h.kernFreePage_touched hlt halign hwalk
    constructor
    · rintro ⟨t, ht, hfrees⟩
      rw [heq, Option.some.injEq, Prod.mk.injEq] at ht
      obtain ⟨-, rfl⟩ := ht
      have hin := hfrees.inUse
      have hout := hfrees.free
      simp only at hin hout
      refine ⟨htouched, ?_, ?_⟩
      · rcases (hremove.addresses h.tables.inUse hpg).2 with
          ⟨hstatus, -⟩ | ⟨-, -, hsame⟩ | ⟨-, -, hsame⟩
        · exact hstatus
        · rw [hsame] at hin
          exact absurd (start_mem_page v) (hin ▸ hsub (start_mem_page v)).2
        · rw [hsame] at hin
          exact absurd (start_mem_page v) (hin ▸ hsub (start_mem_page v)).2
      · rcases hadd.addresses with ⟨hstatus, -⟩ | ⟨-, hsame⟩
        · exact hstatus
        · rw [hsame] at hout
          have hmem : v ∈ task.vmmFree.addresses := hout ▸ Or.inr (start_mem_page v)
          exact absurd hmem (Set.disjoint_left.mp hdisjoint (start_mem_page v))
    · rintro ⟨-, hin, hout⟩
      refine ⟨_, heq, ?_, ?_, fun a ha => ?_, ?_⟩
      · rcases (hremove.addresses h.tables.inUse hpg).2 with
          ⟨-, -, haddresses⟩ | ⟨hstatus, -⟩ | ⟨hstatus, -⟩
        · exact haddresses
        · rw [hin] at hstatus
          cases hstatus
        · rw [hin] at hstatus
          cases hstatus
      · rcases hadd.addresses with ⟨-, haddresses⟩ | ⟨hstatus, -⟩
        · exact haddresses
        · exact absurd hout hstatus
      · have hpath := Memory.indexPath_eq_iff ha (Or.inl hlt : Memory.Canonical v)
        split
        · next hpage =>
            apply Memory.toPhysicalAddress_of_none
            rw [hwalks _ rfl, if_pos (hpath.mpr hpage)]
        · next hpage =>
            apply Memory.toPhysicalAddress_congr
            rw [hwalks _ rfl, if_neg (mt hpath.mp hpage)]
      · rw [if_pos htouched, hphys]
        exact hframes
  · refine iff_of_false ?_ fun hcan => htouched hcan.1
    rintro ⟨t, ht, -⟩
    rw [kernFreePage_untouched htouched] at ht
    cases ht

/-- Freeing a page keeps the memory of the process in order. -/
theorem free (h : task.Sound held) (halign : v % pgSize = 0)
    (hsub : page v ⊆ task.vmmUsing.addresses) (hcan : task.CanFree v) {status : SyscallStatus}
    (heq : task.kernFreePage v = some (status, t)) :
    t.Sound (held.erase (task.memory.toPhysicalAddress task.pageDir v, 1)) ∧
      task.Frees v t := by
  have hpg : 0 < pgSize := by decide
  have hlt : v < 2 ^ 47 := (h.inside hsub).2.trans (by decide)
  have hwrap : v + pgSize < wordSize := by
    unfold pgSize wordSize
    omega
  have hdisjoint : Disjoint (page v) task.vmmFree.addresses :=
    h.tables.disjoint.symm.mono_left hsub
  obtain ⟨t', ht', hfrees⟩ := (h.freesPage_iff halign hsub).mpr hcan
  rw [heq, Option.some.injEq, Prod.mk.injEq] at ht'
  obtain ⟨-, rfl⟩ := ht'
  refine ⟨?_, hfrees⟩
  obtain ⟨f, hwalk, hphys⟩ := (h.touched_iff hlt halign).mp hcan.1
  obtain ⟨memory, mem, heq', htree, hwalks, -, hframes⟩ := h.kernFreePage_touched hlt halign hwalk
  rw [heq, Option.some.injEq, Prod.mk.injEq] at heq'
  obtain ⟨-, rfl⟩ := heq'
  have hin := hfrees.inUse
  have hout := hfrees.free
  rw [hphys]
  -- what is still mapped was mapped before, to another frame
  have hstill {a g : Nat} (ha : a < 2 ^ 47)
      (hg : memory.walk task.pageDir (indexPath a) = some g) :
      task.memory.walk task.pageDir (indexPath a) = some g ∧ a / pgSize ≠ v / pgSize := by
    have hpath := Memory.indexPath_eq_iff (Or.inl ha : Memory.Canonical a)
      (Or.inl hlt : Memory.Canonical v)
    rw [hwalks _ rfl] at hg
    split at hg
    · cases hg
    · next hne => exact ⟨hg, mt hpath.mpr hne⟩
  refine ⟨⟨?_, ?_, ?_⟩, ?_, ?_, ?_, htree, hframes, fun a ha g hg => ?_,
    fun a ha b hb g hga hgb => ?_⟩
  · exact (h.tables.free.addRange hpg hwrap hdisjoint).compact h.tables.free hpg hwrap
  · exact ((h.tables.inUse.removeRange hwrap).addresses h.tables.inUse hpg).1
  · rw [hin, hout, Set.disjoint_union_left]
    exact ⟨h.tables.disjoint.mono_right Set.sdiff_subset, Set.disjoint_sdiff_right⟩
  · rw [hin, hout, ← h.cover, Set.union_assoc, Set.union_sdiff_self,
      Set.union_eq_self_of_subset_left hsub]
  · rw [hout]
    exact h.pagedFree.union (paged_page halign)
  · rw [hin]
    exact h.pagedUsing.sdiff (paged_page halign)
  · obtain ⟨hold, hne⟩ := hstill ha hg
    refine (List.mem_erase_of_ne fun hsame => ?_).mpr (h.mapped a ha g hold)
    rw [Prod.mk.injEq] at hsame
    exact hne (h.apart a ha v hlt f (hsame.1 ▸ hold) hwalk)
  · exact h.apart a ha b hb g (hstill ha hga).1 (hstill hb hgb).1

/-- The page that is taken is one of the free ones, and whole. -/
theorem taken (h : task.Sound held) {start : Nat} (htakes : task.TakesPage start t) :
    start % pgSize = 0 ∧ page start ⊆ task.vmmFree.addresses := by
  obtain ⟨pre, b, post, hlist, -, hroom, rfl⟩ := htakes.first
  have hmem : b ∈ task.vmmFree.list := by simp [hlist]
  refine ⟨start_aligned h.tables.free h.pagedFree hmem, ?_⟩
  exact Range.subset_cover (List.mem_map_of_mem hmem) le_rfl (Nat.add_le_add_left hroom _)

/-- Allocating a page keeps the memory of the process in order. -/
theorem takes (h : task.Sound held) {start : Nat} (htakes : task.TakesPage start t) :
    t.Sound held := by
  obtain ⟨halign, hsub⟩ := h.taken htakes
  have hmemory : t.memory = task.memory ∧ t.mem = task.mem ∧ t.pageDir = task.pageDir := by
    rw [htakes.rest]
    exact ⟨rfl, rfl, rfl⟩
  obtain ⟨hmemory, hmem, hdir⟩ := hmemory
  refine ⟨htakes.tables, ?_, ?_, ?_, ?_, ?_, ?_, ?_⟩
  · rw [htakes.free, htakes.inUse, ← h.cover, Set.union_comm task.vmmUsing.addresses,
      ← Set.union_assoc, Set.sdiff_union_of_subset hsub]
  · rw [htakes.free]
    exact h.pagedFree.sdiff (paged_page halign)
  · rw [htakes.inUse]
    exact h.pagedUsing.union (paged_page halign)
  · rw [hmemory, hdir]
    exact h.tree
  · rw [hmem]
    exact h.frames
  · rw [hmemory, hdir]
    exact h.mapped
  · rw [hmemory, hdir]
    exact h.apart

/-- Freeing a page right after it was allocated restores the tables if it gets that far. -/
theorem restores_iff (h : task.Sound held) {outAddr : Nat}
    (heq : task.kernAllocatePage outAddr = (.success, v, t)) :
    (∃ status u, t.kernFreePage v = some (status, u) ∧ u.vmmFree = task.vmmFree ∧
      u.vmmUsing.list = task.vmmUsing.list) ↔ task.Touched v := by
  have hpg : 0 < pgSize := by decide
  obtain ⟨vmmFree, halloc, hadd, ht⟩ := kernAllocatePage_success heq
  obtain ⟨-, hwrap, -, -, hdisjoint⟩ := h.tables.alloc halloc
  have htakes : task.TakesPage v t := by
    rcases kernAllocatePage_cases h.tables outAddr with ⟨v', t', heq', htakes⟩ | ⟨heq', -⟩
    · rw [heq] at heq'
      obtain ⟨-, rfl, rfl⟩ := heq'
      exact htakes
    · rw [heq] at heq'
      cases heq'
  have htouched : t.Touched v ↔ task.Touched v := by rw [ht]; rfl
  rw [← htouched]
  constructor
  · rintro ⟨status, u, hfree, -⟩
    by_contra hun
    rw [kernFreePage_untouched hun] at hfree
    cases hfree
  · intro hv
    obtain ⟨halign, -⟩ := h.taken htakes
    have hsound := h.takes htakes
    have hsub : page v ⊆ t.vmmUsing.addresses := by
      rw [htakes.inUse]
      exact Set.subset_union_right
    have hlt : v < 2 ^ 47 := (hsound.inside hsub).2.trans (by decide)
    obtain ⟨f, hwalk, -⟩ := (hsound.touched_iff hlt halign).mp hv
    obtain ⟨memory, mem, hfree, -⟩ := hsound.kernFreePage_touched hlt halign hwalk
    refine ⟨_, _, hfree, ?_, ?_⟩
    · rw [ht]
      exact congrArg Prod.snd (h.tables.free.alloc_addRange hpg halloc)
    · rw [ht]
      exact (h.tables.inUse.addRange_removeRange hpg hwrap hdisjoint
        (Prod.ext hadd rfl : task.vmmUsing.vmmAddRange v pgSize = (.kSuccess, _))).2

/-- A fault that is admitted lies below the kernel half. -/
theorem fault_lt (h : task.Sound held) {addr : Nat} (hfind : task.vmmUsing.vmmFind addr = true) :
    addr < 2 ^ 47 := by
  obtain ⟨b, hb, -, hhi⟩ := (h.tables.inUse.vmmFind_iff addr).mp hfind
  obtain ⟨pre, post, hlist⟩ := List.append_of_mem hb
  obtain ⟨-, -, hsize, -, -⟩ := h.tables.inUse.split hlist
  have hlast : b.start + b.size - 1 ∈ task.vmmFree.addresses ∪ task.vmmUsing.addresses := by
    refine Or.inr ⟨b.range, List.mem_map_of_mem hb, ?_, ?_⟩
    · simp only [VmmBlock.range]
      omega
    · simp only [VmmBlock.range]
      omega
  rw [h.cover, Set.mem_Ico] at hlast
  unfold userStackVaddrBase at hlast
  omega

/-- While there is a frame left, a fault that is admitted is resumed with a frame. -/
theorem exists_resumed (h : task.Sound held) {addr cr3 pdpt pdt : Nat}
    (hkernel : cr3 ≠ kernelPageDirTablePos)
    (hfind : task.vmmUsing.vmmFind (faultPage addr) = true) (hframe : ¬ task.mem.NoFrame)
    (hpdpt : Memory.FreshTable task.memory task.pageDir pdpt)
    (hpdt : Memory.FreshTable task.memory task.pageDir pdt) (hne : pdt ≠ pdpt) :
    ∃ t f, task.doPageFault addr cr3 (some pdpt) (some pdt) = .resumed t ∧
      t.memory.walk t.pageDir (indexPath (faultPage addr)) = some f := by
  have hlt := h.fault_lt hfind
  rcases task.mem.allocPhysicalPage_one with ⟨hno, -⟩ | ⟨-, f, mem, -, hf, halloc, -⟩
  · exact absurd hno hframe
  · have hpaddr : f * pgSize < 2 ^ 64 := by
      unfold pgSize
      omega
    obtain ⟨memory, hmap, -, hwalks⟩ := Memory.pageMap_walk h.tree
      (hlt.trans (by decide)) hpaddr hpdpt hpdt hne
    have hwalk := hwalks (indexPath (faultPage addr)) rfl
    rw [if_pos rfl] at hwalk
    refine ⟨{ task with memory, mem }, _, ?_, hwalk⟩
    have hadmitted : ¬ task.vmmUsing.vmmFind (faultPage addr) = false := by
      rw [hfind]
      decide
    simp only [doPageFault, if_neg hkernel, if_neg hadmitted, halloc, hmap]

/-- A fault that is resumed has mapped a new frame. -/
theorem resumed (h : task.Sound held) {addr cr3 pdpt pdt : Nat}
    (hpdpt : Memory.FreshTable task.memory task.pageDir pdpt)
    (hpdt : Memory.FreshTable task.memory task.pageDir pdt) (hne : pdt ≠ pdpt)
    (heq : task.doPageFault addr cr3 (some pdpt) (some pdt) = .resumed t) :
    ∃ paddr, (∃ r, task.mem.allocPhysicalPage 1 = some r ∧ r.addr = some paddr) ∧
      t.Sound ((paddr, 1) :: held) ∧ t.vmmFree = task.vmmFree ∧ t.vmmUsing = task.vmmUsing := by
  unfold doPageFault at heq
  simp only at heq
  split_ifs at heq with hkernel hfind
  have hlt := h.fault_lt (Bool.not_eq_false _ ▸ hfind)
  rcases task.mem.allocPhysicalPage_one with ⟨-, addr', halloc⟩ | ⟨-, f, mem, -, -, halloc, -⟩
  · rw [halloc] at heq
    cases heq
  · generalize f * pgSize = paddr at halloc
    have hframes : FrameInv ⟨mem, (paddr, 1) :: held⟩ := by
      apply h.frames.alloc (n := 1)
      simp only [frameStep]
      rw [halloc]
    have halign : paddr / pgSize * pgSize = paddr := hframes.aligned (paddr, 1) List.mem_cons_self
    have hpaddr : paddr < 2 ^ 64 := by
      have hin := (hframes.inside (paddr, 1) List.mem_cons_self).2
      have hcap := mem.btmpBytesLen_le
      simp only at hin
      unfold pgSize at *
      omega
    obtain ⟨memory, hmap, htree, hwalks⟩ := Memory.pageMap_walk h.tree
      (hlt.trans (by decide) : faultPage addr < 2 ^ 64) hpaddr hpdpt hpdt hne
    rw [halloc] at heq
    simp only [hmap, FaultResult.resumed.injEq] at heq
    subst heq
    have hnew (f : Nat) (hf : (f, 1) ∈ held) : f ≠ paddr := by
      rintro rfl
      have hdisjoint := (List.pairwise_cons.mp hframes.disjoint).1 (f, 1) hf
      rw [disjoint_self, allocFrames, Finset.bot_eq_empty, Finset.Ico_eq_empty_iff] at hdisjoint
      exact hdisjoint (Nat.lt_succ_self _)
    have hpath {a : Nat} (ha : a < 2 ^ 47) := Memory.indexPath_eq_iff
      (Or.inl ha : Memory.Canonical a) (Or.inl hlt : Memory.Canonical (faultPage addr))
    refine ⟨paddr, ⟨_, halloc, rfl⟩, ⟨⟨h.tables.free, h.tables.inUse, h.tables.disjoint⟩, h.cover,
      h.pagedFree, h.pagedUsing, htree, hframes, fun a ha f hf => ?_,
      fun a ha b hb f hfa hfb => ?_⟩, rfl, rfl⟩
    · simp only at hf
      rw [hwalks _ rfl] at hf
      split at hf
      · rw [halign, Option.some.injEq] at hf
        rw [hf]
        exact List.mem_cons_self
      · exact List.mem_cons_of_mem _ (h.mapped a ha f hf)
    · simp only at hfa hfb
      rw [hwalks _ rfl] at hfa hfb
      split at hfa
      · next heqa =>
          rw [halign, Option.some.injEq] at hfa
          split at hfb
          · next heqb =>
              exact ((hpath ha).mp heqa).trans ((hpath hb).mp heqb).symm
          · exact absurd hfa.symm (hnew f (h.mapped b hb f hfb))
      · split at hfb
        · rw [halign, Option.some.injEq] at hfb
          exact absurd hfb.symm (hnew f (h.mapped a ha f hfa))
        · exact h.apart a ha b hb f hfa hfb

end Sound

end ProcMem

/-! ## Runs -/

/-- A process in a run: its memory, the pages it obtained and has not freed, and the live
allocations of frames of the whole kernel. -/
structure TaskRun where
  task : ProcMem
  live : Set Nat
  held : List (Nat × Nat)

/-- What happens to the memory of a process: its calls, its faults with the tables `kmalloc`
would give, and what other tasks do to memory and to the frame allocator. -/
inductive TaskCall
  | allocatePage
  | freePage (addr : Nat)
  | fault (addr pdpt pdt : Nat)
  | other (call : FrameCall)

namespace TaskRun

open ProcMem

/-- After `proc_execute`: all user addresses are free, and `start_process` may have mapped
the user stack already. -/
def Init (s : TaskRun) : Prop :=
  (∃ freeBlocks usingBlocks,
      (s.task.vmmFree, s.task.vmmUsing) = userVaddrTableInit freeBlocks usingBlocks) ∧
    s.live = ∅ ∧ frameSystem.Reachable ⟨s.task.mem, s.held⟩ ∧
    Memory.PageTree s.task.memory s.task.pageDir ∧
    ∀ a < 2 ^ 47, ∀ f, s.task.memory.walk s.task.pageDir (indexPath a) = some f →
      a / pgSize = userStackVaddrBase / pgSize ∧ (f, 1) ∈ s.held

/-- KERN_ALLOCATE_PAGE. -/
def allocatePage (s : TaskRun) : TaskRun :=
  let (status, vaddr, task) := s.task.kernAllocatePage 0
  { s with task, live := if status = .success then insert vaddr s.live else s.live }

theorem allocatePage_success {s : TaskRun} {start : Nat} {task : ProcMem}
    (heq : s.task.kernAllocatePage 0 = (.success, start, task)) :
    s.allocatePage = ⟨task, insert start s.live, s.held⟩ := by
  simp only [allocatePage, heq, if_true]

theorem allocatePage_error {s : TaskRun} {outAddr : Nat} {task : ProcMem}
    (heq : s.task.kernAllocatePage 0 = (.error, outAddr, task)) :
    s.allocatePage = ⟨task, s.live, s.held⟩ := by
  simp only [allocatePage, heq, reduceCtorEq, if_false]

/-- One step of a run. Other tasks release only what is theirs, and leave the directory of
the process a tree with the same user mappings. -/
def Step (s : TaskRun) (call : TaskCall) (t : TaskRun) : Prop :=
  match call with
  | .allocatePage => t = s.allocatePage
  | .freePage addr =>
      (∃ status, s.task.kernFreePage addr = some (status, t.task)) ∧ t.live = s.live \ {addr} ∧
        t.held = s.held.erase (s.task.memory.toPhysicalAddress s.task.pageDir addr, 1)
  | .fault addr pdpt pdt =>
      Memory.FreshTable s.task.memory s.task.pageDir pdpt ∧
        Memory.FreshTable s.task.memory s.task.pageDir pdt ∧ pdt ≠ pdpt ∧
        s.task.doPageFault addr s.task.pageDir (some pdpt) (some pdt) = .resumed t.task ∧
        t.live = s.live ∧
        ∃ r paddr, s.task.mem.allocPhysicalPage 1 = some r ∧ r.addr = some paddr ∧
          t.held = (paddr, 1) :: s.held
  | .other call =>
      frameStep ⟨s.task.mem, s.held⟩ call = some ⟨t.task.mem, t.held⟩ ∧
        (∀ addr n, call = .free addr n → ∀ a < 2 ^ 47,
          s.task.memory.walk s.task.pageDir (indexPath a) ≠ some addr) ∧
        t.live = s.live ∧ t.task.vmmFree = s.task.vmmFree ∧
        t.task.vmmUsing = s.task.vmmUsing ∧ t.task.pageDir = s.task.pageDir ∧
        Memory.PageTree t.task.memory s.task.pageDir ∧
        ∀ a < 2 ^ 47, t.task.memory.walk s.task.pageDir (indexPath a) =
          s.task.memory.walk s.task.pageDir (indexPath a)

/-- Only pages the process obtained are freed, and only those that can be. -/
def Releases (s : TaskRun) (call : TaskCall) : Prop :=
  ∀ addr, call = .freePage addr → addr ∈ s.live ∧ s.task.CanFree addr

end TaskRun

/-- The runs of a process. -/
def taskSystem : System TaskRun TaskCall where
  init := TaskRun.Init
  step := TaskRun.Step

theorem userVaddrTableInit_addresses (freeBlocks usingBlocks : Nat → VmmBlock) :
    (userVaddrTableInit freeBlocks usingBlocks).1.Compact ∧
      (userVaddrTableInit freeBlocks usingBlocks).1.addresses =
        Set.Ico userVaddrStart userStackVaddrBase ∧
      (userVaddrTableInit freeBlocks usingBlocks).2.Compact ∧
      (userVaddrTableInit freeBlocks usingBlocks).2.addresses = ∅ := by
  have hempty (blocks : Nat → VmmBlock) : (Vmm.vmmStructInit blocks 1024).addresses = ∅ :=
    Range.cover_nil
  have hadd := (Vmm.compact_vmmStructInit freeBlocks 1024).addRange
    (show 0 < userStackVaddrBase - userVaddrStart by decide)
    (show userVaddrStart + (userStackVaddrBase - userVaddrStart) < wordSize by decide)
    (by rw [hempty]; exact Set.disjoint_empty _)
  refine ⟨hadd.compact (Vmm.compact_vmmStructInit _ _) (by decide) (by decide), ?_,
    Vmm.compact_vmmStructInit _ _, hempty _⟩
  rcases hadd.addresses with ⟨-, heq⟩ | ⟨hstatus, -⟩
  · rw [hempty, Set.empty_union] at heq
    exact heq
  · exact absurd (hadd.success_iff.mpr fun hfull => Nat.not_succ_le_zero 1023 hfull.1) hstatus

namespace TaskRun

open ProcMem

/-- The memory is in order, and the pages obtained are those in `vmm_using`. -/
structure Inv (s : TaskRun) : Prop where
  sound : s.task.Sound s.held
  live : ∀ v, v ∈ s.live ↔ v % pgSize = 0 ∧ page v ⊆ s.task.vmmUsing.addresses

namespace Inv

variable {s t : TaskRun}

theorem init (hinit : s.Init) : s.Inv := by
  obtain ⟨⟨freeBlocks, usingBlocks, htables⟩, hlive, hframes, htree, hstack⟩ := hinit
  obtain ⟨hfree, haddresses, husing, hempty⟩ := userVaddrTableInit_addresses freeBlocks usingBlocks
  rw [← htables] at hfree haddresses husing hempty
  simp only at hfree haddresses husing hempty
  refine ⟨⟨⟨hfree, husing, ?_⟩, ?_, ?_, ?_, htree, FrameInv.of_reachable hframes,
    fun a ha f hf => (hstack a ha f hf).2, fun a ha b hb f hfa hfb => ?_⟩, fun v => ?_⟩
  · rw [hempty]
    exact Set.disjoint_empty _
  · rw [haddresses, hempty, Set.union_empty]
  · rw [haddresses]
    intro x y hxy hx
    rw [Set.mem_Ico] at hx ⊢
    unfold userVaddrStart userStackVaddrBase pgSize at *
    omega
  · rw [hempty]
    intro x y hxy hx
    exact absurd hx (Set.notMem_empty _)
  · exact (hstack a ha f hfa).1.trans (hstack b hb f hfb).1.symm
  · rw [hlive, hempty]
    refine iff_of_false (Set.notMem_empty v) fun hv => ?_
    exact Set.notMem_empty v (hv.2 (start_mem_page v))

theorem allocatePage (h : s.Inv) : s.allocatePage.Inv := by
  rcases kernAllocatePage_cases h.sound.tables 0 with ⟨start, t, heq, htakes⟩ | ⟨heq, -⟩
  · obtain ⟨halign, -⟩ := h.sound.taken htakes
    rw [allocatePage_success heq]
    refine ⟨h.sound.takes htakes, fun v => ?_⟩
    rw [htakes.inUse, Set.mem_insert_iff, h.live]
    constructor
    · rintro (rfl | ⟨hv, hsub⟩)
      · exact ⟨halign, Set.subset_union_right⟩
      · exact ⟨hv, hsub.trans Set.subset_union_left⟩
    · rintro ⟨hv, hsub⟩
      by_cases hne : v = start
      · exact Or.inl hne
      · exact Or.inr ⟨hv, (disjoint_page hv halign hne).subset_left_of_subset_union hsub⟩
  · rw [allocatePage_error heq]
    exact h

theorem freePage (h : s.Inv) {addr : Nat} (hlive : addr ∈ s.live) (hcan : s.task.CanFree addr)
    (hstep : s.Step (.freePage addr) t) : t.Inv := by
  obtain ⟨⟨status, heq⟩, hlive', hheld⟩ := hstep
  obtain ⟨halign, hsub⟩ := (h.live addr).mp hlive
  obtain ⟨hsound, hfrees⟩ := h.sound.free halign hsub hcan heq
  refine ⟨hheld ▸ hsound, fun v => ?_⟩
  rw [hlive', hfrees.inUse, Set.mem_sdiff, Set.mem_singleton_iff, h.live, Set.subset_sdiff]
  constructor
  · rintro ⟨⟨hv, hin⟩, hne⟩
    exact ⟨hv, hin, disjoint_page hv halign hne⟩
  · rintro ⟨hv, hin, hdisjoint⟩
    refine ⟨⟨hv, hin⟩, ?_⟩
    rintro rfl
    exact Set.disjoint_left.mp hdisjoint (start_mem_page v) (start_mem_page v)

theorem fault (h : s.Inv) {addr pdpt pdt : Nat} (hstep : s.Step (.fault addr pdpt pdt) t) :
    t.Inv := by
  obtain ⟨hpdpt, hpdt, hne, heq, hlive, r, paddr, halloc, haddr, hheld⟩ := hstep
  obtain ⟨paddr', ⟨r', halloc', haddr'⟩, hsound, -, husing⟩ := h.sound.resumed hpdpt hpdt hne heq
  rw [halloc, Option.some.injEq] at halloc'
  rw [← halloc', haddr, Option.some.injEq] at haddr'
  rw [← haddr', ← hheld] at hsound
  refine ⟨hsound, fun v => ?_⟩
  rw [hlive, husing]
  exact h.live v

theorem other (h : s.Inv) {call : FrameCall} (hstep : s.Step (.other call) t) : t.Inv := by
  obtain ⟨hframes, hforeign, hlive, hfree, husing, hdir, htree, hwalk⟩ := hstep
  have hmem (f : Nat) (a : Nat) (ha : a < 2 ^ 47)
      (hf : s.task.memory.walk s.task.pageDir (indexPath a) = some f) : (f, 1) ∈ t.held := by
    have hold := h.sound.mapped a ha f hf
    cases call with
    | alloc n =>
        rcases frameStep_alloc hframes with heq | ⟨index, -, heq, -⟩
        · rw [show t.held = s.held from congrArg FrameState.live heq]
          exact hold
        · rw [show t.held = _ from heq]
          exact List.mem_cons_of_mem _ hold
    | free addr n =>
        obtain ⟨-, heq, -⟩ := frameStep_free hframes
        rw [show t.held = s.held.erase (addr, n) from heq]
        refine (List.mem_erase_of_ne fun hsame => ?_).mpr hold
        rw [Prod.mk.injEq] at hsame
        exact hforeign addr n rfl a ha (hsame.1 ▸ hf)
  refine ⟨⟨⟨?_, ?_, ?_⟩, ?_, ?_, ?_, ?_, ?_, fun a ha f hf => ?_, fun a ha b hb f hfa hfb => ?_⟩,
    fun v => ?_⟩
  · rw [hfree]
    exact h.sound.tables.free
  · rw [husing]
    exact h.sound.tables.inUse
  · rw [hfree, husing]
    exact h.sound.tables.disjoint
  · rw [hfree, husing]
    exact h.sound.cover
  · rw [hfree]
    exact h.sound.pagedFree
  · rw [husing]
    exact h.sound.pagedUsing
  · rw [hdir]
    exact htree
  · cases call with
    | alloc n => exact h.sound.frames.alloc hframes
    | free addr n => exact h.sound.frames.free hframes
  · rw [hdir, hwalk a ha] at hf
    exact hmem f a ha hf
  · rw [hdir, hwalk a ha] at hfa
    rw [hdir, hwalk b hb] at hfb
    exact h.sound.apart a ha b hb f hfa hfb
  · rw [hlive, husing]
    exact h.live v

theorem step (h : s.Inv) {call : TaskCall} (hguard : s.Releases call) (hstep : s.Step call t) :
    t.Inv := by
  cases call with
  | allocatePage => exact hstep ▸ h.allocatePage
  | freePage addr =>
      obtain ⟨hlive, hcan⟩ := hguard addr rfl
      exact h.freePage hlive hcan hstep
  | fault addr pdpt pdt => exact h.fault hstep
  | other call => exact h.other hstep

theorem of_reachable (hreach : taskSystem.ReachableWhen Releases s) : s.Inv :=
  hreach.invariant (P := TaskRun.Inv) (fun _ => init) fun _ _ _ h => h.step

end Inv

end TaskRun

namespace ProcMem

/-- The address is the base of a page inside `vmm_using`. -/
def IsBase (task : ProcMem) (addr : Nat) : Prop :=
  addr % pgSize = 0 ∧ page addr ⊆ task.vmmUsing.addresses

/-- The ranges are apart, within a table and across the two, and are the user addresses. -/
structure Partition (task : ProcMem) : Prop where
  free : Range.Separated (task.vmmFree.list.map VmmBlock.range)
  inUse : Range.Separated (task.vmmUsing.list.map VmmBlock.range)
  disjoint : Disjoint task.vmmFree.addresses task.vmmUsing.addresses
  cover : task.vmmFree.addresses ∪ task.vmmUsing.addresses =
    Set.Ico userVaddrStart userStackVaddrBase

/-- An address that is no base is refused, and nothing changes. -/
def Refuses (task : ProcMem) (addr : Nat) : Prop :=
  ¬ task.IsBase addr → task.kernFreePage addr = some (.error, task)

/-- `kern_free_page` never reports an error. -/
theorem kernFreePage_status {task t : ProcMem} {addr : Nat} {status : SyscallStatus}
    (heq : task.kernFreePage addr = some (status, t)) : status = .success := by
  simp only [kernFreePage, Option.bind_eq_bind, Option.bind_eq_some_iff, Option.pure_def,
    Option.some.injEq, Prod.mk.injEq] at heq
  obtain ⟨mem, -, memory, -, hstatus, -⟩ := heq
  exact hstatus.symm

theorem refuses_iff (task : ProcMem) (addr : Nat) : task.Refuses addr ↔ task.IsBase addr := by
  refine ⟨fun h => ?_, fun hbase hno => absurd hbase hno⟩
  by_contra hno
  cases kernFreePage_status (h hno)

theorem Sound.partition {task : ProcMem} {held : List (Nat × Nat)} (h : task.Sound held) :
    task.Partition :=
  ⟨h.tables.free.separated, h.tables.inUse.separated, h.tables.disjoint, h.cover⟩

end ProcMem

/-- What is freed is the base of a page in use, and the tables have room. -/
def TaskRun.FreesBases (s : TaskRun) (call : TaskCall) : Prop :=
  ∀ addr, call = .freePage addr → s.task.IsBase addr ∧ s.task.HasRoom addr

/-- In every run whose frees are of bases of pages in use, the two tables split the user
addresses among them; and no other address is ever refused. -/
theorem taskSystem_partition {s : TaskRun}
    (hreach : taskSystem.ReachableWhen TaskRun.FreesBases s) :
    s.task.Partition ∧ ∀ addr, s.task.Refuses addr ↔ s.task.IsBase addr := by
  refine ⟨?_, s.task.refuses_iff⟩
  have hinv : s.Inv := by
    refine hreach.invariant (P := TaskRun.Inv) (fun s => .init) fun s call t h hguard hstep => ?_
    apply h.step _ hstep
    rintro addr rfl
    obtain ⟨hbase, hroom⟩ := hguard addr rfl
    refine ⟨(h.live addr).mpr hbase, ?_, hroom⟩
    -- the step was taken, so the page has a frame
    obtain ⟨⟨status, heq⟩, -⟩ := hstep
    by_contra huntouched
    rw [ProcMem.kernFreePage_untouched huntouched] at heq
    cases heq
  exact hinv.sound.partition

/-- In every run that frees only what it can, each page obtained can be freed as it should
just when it was touched and the tables have room; and freeing a page right after it was
allocated restores both tables just when the page had a frame before. -/
theorem taskSystem_frees {s : TaskRun}
    (hreach : taskSystem.ReachableWhen TaskRun.Releases s) :
    (∀ v ∈ s.live, s.task.FreesPage v ↔ s.task.CanFree v) ∧
    ∀ outAddr v t, s.task.kernAllocatePage outAddr = (.success, v, t) →
      ((∃ status u, t.kernFreePage v = some (status, u) ∧ u.vmmFree = s.task.vmmFree ∧
          u.vmmUsing.list = s.task.vmmUsing.list) ↔ s.task.Touched v) := by
  have h := TaskRun.Inv.of_reachable hreach
  refine ⟨fun v hv => ?_, fun outAddr v t heq => ?_⟩
  · obtain ⟨halign, hsub⟩ := (h.live v).mp hv
    exact h.sound.freesPage_iff halign hsub
  · exact h.sound.restores_iff heq

namespace TaskRun

open ProcMem

/-- A process that was just created, on a machine with 13 free frames. -/
def created : TaskRun where
  task :=
    { vmmFree := (userVaddrTableInit (fun _ => ⟨0, 0⟩) fun _ => ⟨0, 0⟩).1
      vmmUsing := (userVaddrTableInit (fun _ => ⟨0, 0⟩) fun _ => ⟨0, 0⟩).2
      pageDir := 0x1000000
      memory := fun _ => 0
      mem := bootFrames.mem }
  live := ∅
  held := []

theorem created_init : taskSystem.init created := by
  refine ⟨⟨_, _, rfl⟩, rfl, .init bootFrames_init, Memory.pageTree_zero (by decide), ?_⟩
  intro a _ f hf
  cases (Memory.eq_nil_of_walk_zero hf).1

/-- The first page allocated is the first one there is. -/
theorem created_takes : 0x800000 ∈ created.allocatePage.live ∧
    created.task.TakesPage 0x800000 created.allocatePage.task := by
  have hlist : created.task.vmmFree.list =
      [⟨userVaddrStart, userStackVaddrBase - userVaddrStart⟩] := by
    simp [created, userVaddrTableInit, Vmm.vmmAddRange, Vmm.vmmStructInit, Vmm.search,
      Vmm.searchFrom, Vmm.setBlock, Vmm.moveBackward, Vmm.moveBackwardFrom, Vmm.list]
  rcases kernAllocatePage_cases (Inv.init created_init).sound.tables 0 with
    ⟨start, t, heq, htakes⟩ | ⟨-, hsmall | hfull⟩
  · obtain ⟨pre, b, post, hsplit, -, -, hstart⟩ := htakes.first
    have hb : b ∈ created.task.vmmFree.list := by simp [hsplit]
    rw [hlist, List.mem_singleton] at hb
    rw [hb] at hstart
    rw [allocatePage_success heq]
    subst hstart
    exact ⟨Set.mem_insert userVaddrStart _, htakes⟩
  · have hsize := hsmall ⟨userVaddrStart, userStackVaddrBase - userVaddrStart⟩ (by simp [hlist])
    exact absurd hsize (by decide)
  · exact absurd hfull (Nat.not_succ_le_zero 1023)

/-- The page borders on what is left of the free addresses. -/
theorem created_hasRoom : created.allocatePage.task.HasRoom 0x800000 := by
  refine ⟨fun h => absurd h.1 (by decide +kernel), fun h => ?_⟩
  have hfree := created_takes.2.free
  have hall : created.task.vmmFree.addresses = Set.Ico userVaddrStart userStackVaddrBase :=
    (userVaddrTableInit_addresses (fun _ => ⟨0, 0⟩) fun _ => ⟨0, 0⟩).2.1
  have hmem (a : Nat) : a ∈ created.allocatePage.task.vmmFree.addresses ↔
      0xa00000 ≤ a ∧ a < userStackVaddrBase := by
    rw [hfree, hall, Set.mem_sdiff, Set.mem_Ico, Set.mem_Ico]
    unfold userVaddrStart pgSize
    omega
  obtain ⟨r, hr, hlo, hhi⟩ := (hmem 0xa00000).mpr (by decide)
  obtain ⟨b, hb, rfl⟩ := List.mem_map.mp hr
  have hstart := (hmem b.start).mp ⟨b.range, hr, le_rfl, hlo.trans_lt hhi⟩
  exact (h.2 b hb).2 (Nat.le_antisymm hstart.1 hlo)

/-- The process allocates its first page and frees it before it has touched it. -/
theorem created_not_frees : taskSystem.Reachable created.allocatePage ∧
    0x800000 ∈ created.allocatePage.live ∧
    ¬ created.allocatePage.task.FreesPage 0x800000 := by
  refine ⟨.step (.init created_init) (a := .allocatePage) trivial rfl, created_takes.1, ?_⟩
  rintro ⟨t, heq, -⟩
  have huntouched : ¬ created.allocatePage.task.Touched 0x800000 := by
    obtain ⟨hmemory, hdir⟩ := kernAllocatePage_memory created.task 0
    rw [Touched, not_not]
    change (created.task.kernAllocatePage 0).2.2.memory.toPhysicalAddress
      (created.task.kernAllocatePage 0).2.2.pageDir 0x800000 = 0
    rw [hmemory, hdir]
    rfl
  rw [kernFreePage_untouched huntouched] at heq
  cases heq

/-- Freeing an address that was never allocated stops the machine instead of being refused. -/
theorem created_not_refuses : taskSystem.Reachable created ∧ ¬ created.task.Refuses 0x900000 := by
  refine ⟨.init created_init, fun h => ?_⟩
  have huntouched : ¬ created.task.Touched 0x900000 := not_not.mpr rfl
  have hno : ¬ created.task.IsBase 0x900000 := fun hbase => absurd hbase.1 (by decide)
  have heq := h hno
  rw [kernFreePage_untouched huntouched] at heq
  cases heq

theorem created_frame : ¬ created.allocatePage.task.mem.NoFrame := by
  change ¬ (created.task.kernAllocatePage 0).2.2.mem.NoFrame
  rw [kernAllocatePage_mem]
  exact onePage_frame

/-- The process touches its first page. -/
theorem exists_faulted : ∃ s : TaskRun, taskSystem.ReachableWhen FreesBases s ∧ s.Inv ∧
    0x800000 ∈ s.live ∧ s.task.Touched 0x800000 ∧ s.task.HasRoom 0x800000 := by
  have hreach : taskSystem.ReachableWhen FreesBases created.allocatePage :=
    .step (.init created_init) (a := .allocatePage) nofun rfl
  have hinv := (Inv.init created_init).allocatePage
  obtain ⟨hmemory, hdir⟩ := kernAllocatePage_memory created.task 0
  have hfresh {table : Nat} (halign : table % ptSize = 0) (hlt : table < 2 ^ 64)
      (hne : table ≠ 0x1000000) : Memory.FreshTable created.allocatePage.task.memory
        created.allocatePage.task.pageDir table := by
    change Memory.FreshTable (created.task.kernAllocatePage 0).2.2.memory
      (created.task.kernAllocatePage 0).2.2.pageDir table
    rw [hmemory, hdir]
    exact ⟨halign, hlt, fun ⟨_, _, hwalk⟩ => hne (Memory.eq_nil_of_walk_zero hwalk).2⟩
  have hpdpt := hfresh (show 0x1001000 % ptSize = 0 by decide) (by decide) (by decide)
  have hpdt := hfresh (show 0x1002000 % ptSize = 0 by decide) (by decide) (by decide)
  have hpage : faultPage 0x800000 = 0x800000 := by decide
  have hfind : created.allocatePage.task.vmmUsing.vmmFind (faultPage 0x800000) = true := by
    obtain ⟨r, hr, hlo, hhi⟩ := ((hinv.live _).mp created_takes.1).2 (start_mem_page _)
    obtain ⟨b, hb, rfl⟩ := List.mem_map.mp hr
    rw [hpage]
    exact (hinv.sound.tables.inUse.vmmFind_iff _).mpr ⟨b, hb, hlo, hhi.le⟩
  obtain ⟨t, f, hresume, hwalk⟩ := hinv.sound.exists_resumed
    (show 0x1000000 ≠ kernelPageDirTablePos by decide) hfind created_frame hpdpt hpdt (by decide)
  obtain ⟨paddr, ⟨r, halloc, haddr⟩, hsound, hfree, husing⟩ :=
    hinv.sound.resumed hpdpt hpdt (by decide) hresume
  have hstep : taskSystem.step created.allocatePage (.fault 0x800000 0x1001000 0x1002000)
      ⟨t, created.allocatePage.live, (paddr, 1) :: created.allocatePage.held⟩ :=
    ⟨hpdpt, hpdt, by decide, hresume, rfl, r, paddr, halloc, haddr, rfl⟩
  rw [hpage] at hwalk
  refine ⟨_, hreach.step (a := .fault 0x800000 0x1001000 0x1002000) nofun hstep,
    hinv.fault hstep, created_takes.1, ?_, ?_⟩
  · have hphys := hsound.toPhysicalAddress_of_walk (by decide) (by decide) hwalk
    exact (hsound.touched_iff (by decide) (by decide)).mpr ⟨f, hwalk, hphys⟩
  · rw [HasRoom, hfree, husing]
    exact created_hasRoom

/-- The first page is allocated, touched and freed, and the tables split the user addresses before
and after. -/
theorem created_partition : ∃ s t : TaskRun, s.Step (.freePage 0x800000) t ∧
    0x800000 ∈ s.live ∧ 0x800000 ∉ t.live ∧ s.task.Partition ∧ t.task.Partition := by
  obtain ⟨s, hreach, hinv, hlive, htouched, hroom⟩ := exists_faulted
  have halign : 0x800000 % pgSize = 0 := by decide
  obtain ⟨f, hwalk, -⟩ := (hinv.sound.touched_iff (by decide) halign).mp htouched
  obtain ⟨memory, mem, hfree, -⟩ := hinv.sound.kernFreePage_touched (by decide) halign hwalk
  obtain ⟨t, hstep, hgone⟩ : ∃ t : TaskRun, s.Step (.freePage 0x800000) t ∧ 0x800000 ∉ t.live :=
    ⟨⟨_, s.live \ {0x800000}, s.held.erase _⟩, ⟨⟨_, hfree⟩, rfl, rfl⟩, fun h => h.2 rfl⟩
  have hguard : s.FreesBases (.freePage 0x800000) := by
    rintro addr ⟨⟩
    exact ⟨(hinv.live _).mp hlive, hroom⟩
  exact ⟨s, t, hstep, hlive, hgone, (taskSystem_partition hreach).1,
    (taskSystem_partition (hreach.step hguard hstep)).1⟩

/-- For that page the run shows the condition for what it is. -/
theorem created_frees_iff : created.allocatePage.task.FreesPage 0x800000 ↔
    created.allocatePage.task.CanFree 0x800000 := by
  have hreach : taskSystem.ReachableWhen Releases created.allocatePage :=
    .step (.init created_init) (a := .allocatePage) nofun rfl
  exact (taskSystem_frees hreach).1 _ created_takes.1

end TaskRun

end ClayFigure
