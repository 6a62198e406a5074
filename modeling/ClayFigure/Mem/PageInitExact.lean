/-
# Which memory maps start up correctly

Two properties of the state `mem_page_init` leaves, each with the exact set of
maps for which it holds: no page is marked that is not free memory throughout,
and the counter and the searched part of the bitmap agree with each other and
with the map. Both fail on maps a firmware may hand over.
-/

import ClayFigure.Mem.PageInit

namespace ClayFigure

open ClayFigure.Math

/-! ## Only free memory is marked -/

/-- The address the walk gives to the descriptor behind the members `pre`. -/
def Block.place (b : Block) (pre : List EfiMemoryDescriptor) : Nat :=
  b.first.physicalStart + extent pre

/-- Page `p` is among those that start-up takes from block `b`. -/
def UefiMap.Takes (map : UefiMap) (b : Block) (p : Nat) : Prop :=
  p ∈ b.pages ∧ p < pageBitmapBytesLen * 8 ∧ ¬ (p < 3 ∧ 8 ≤ map.pageTotal)

/-- A descriptor of a free block that does not lie where the walk puts it is put
on free memory, as far as pages taken from the block are concerned. -/
def UefiMap.MisplacedOnFree (map : UefiMap) : Prop :=
  ∀ b ∈ freeBlocks map.blocks, ∀ pre d post, b.members = pre ++ d :: post →
    d.physicalStart ≠ b.place pre →
    ∀ x, b.place pre ≤ x → x < b.place pre + d.size → map.Takes b (x / pgSize) →
      map.IsFreeByte x

/-- The allocator from start-up on. -/
def bootSystem (map : UefiMap) : System FrameState FrameCall where
  init s := s = ⟨memPageInit map, []⟩
  step s c t := frameStep s c = some t

/-- Start-up marks free memory only, and no history of requests hands out a page
with a byte of anything else. -/
def UefiMap.OnlyFree (map : UefiMap) : Prop :=
  (∀ p, (memPageInit map).Marked p → map.IsFreePage p) ∧
    ∀ s, (bootSystem map).Reachable s → ∀ a ∈ s.live, ∀ p ∈ allocFrames a, map.IsFreePage p

/-- An address inside the span of some descriptors lies in the place of one. -/
theorem exists_place (first : Nat) (ds : List EfiMemoryDescriptor) {x : Nat}
    (hle : first ≤ x) (hlt : x < first + extent ds) :
    ∃ pre d post, ds = pre ++ d :: post ∧ first + extent pre ≤ x ∧
      x < first + extent pre + d.size := by
  induction ds generalizing first with
  | nil =>
      rw [extent_nil] at hlt
      omega
  | cons d ds ih =>
      by_cases hd : x < first + d.size
      · exact ⟨[], d, ds, rfl, by simpa using hle, by simpa using hd⟩
      · rw [extent_cons] at hlt
        obtain ⟨pre, e, post, hsplit, hpre, hpost⟩ :=
          ih (first + d.size) (by omega) (by omega)
        refine ⟨d :: pre, e, post, by rw [hsplit, List.cons_append], ?_, ?_⟩ <;>
          rw [extent_cons] <;> omega

/-- All members of a block have the type of its first one. -/
theorem memoryType_of_mem_blocksFrom {b : Block} {ds : List EfiMemoryDescriptor}
    (hb : ∀ d ∈ b.members, memoryType d.type = memoryType b.first.type) :
    ∀ c ∈ blocksFrom b ds, ∀ d ∈ c.members, memoryType d.type = memoryType c.first.type := by
  induction ds generalizing b with
  | nil => simpa [blocksFrom] using hb
  | cons e ds ih =>
      rw [blocksFrom]
      have hnext := ih (b := ⟨e, []⟩) (by simp [Block.members])
      by_cases hbreak : b.stop < e.physicalStart ∨ memoryType e.type ≠ memoryType b.first.type
      · rw [if_pos hbreak]
        exact List.forall_mem_cons.mpr ⟨hb, hnext⟩
      · rw [if_neg hbreak]
        refine ih (b := b.extend e) fun d hd => ?_
        rw [Block.members_extend, List.mem_append, List.mem_singleton] at hd
        rcases hd with hd | rfl
        · exact hb d hd
        · exact not_not.mp (not_or.mp hbreak).2

theorem UefiMap.memoryType_of_mem_blocks {map : UefiMap} {b : Block} (hb : b ∈ map.blocks)
    {d : EfiMemoryDescriptor} (hd : d ∈ b.members) :
    memoryType d.type = memoryType b.first.type := by
  unfold blocks at hb
  cases hds : map.descriptors with
  | nil => simp [hds] at hb
  | cons e ds =>
      rw [hds] at hb
      exact memoryType_of_mem_blocksFrom (b := ⟨e, []⟩) (by simp [Block.members]) b hb d hd

theorem mem_freeBlocks {bs : List Block} {b : Block} :
    b ∈ freeBlocks bs ↔ b ∈ bs ∧ b.IsFree := by
  simp [freeBlocks]

theorem marked_iff_takes (map : UefiMap) (p : Nat) :
    (memPageInit map).Marked p ↔ ∃ b ∈ freeBlocks map.blocks, map.Takes b p := by
  rw [memPageInit_marked]
  constructor
  · rintro ⟨⟨hcap, b, hb, hp⟩, hlow⟩
    exact ⟨b, hb, hp, hcap, hlow⟩
  · rintro ⟨b, hb, hp, hcap, hlow⟩
    exact ⟨⟨hcap, b, hb, hp⟩, hlow⟩

/-- The bytes of a page of a block lie in the span of the block. -/
theorem Block.span_of_mem_pages {b : Block} {p x : Nat} (hp : p ∈ b.pages)
    (hle : p * pgSize ≤ x) (hlt : x < (p + 1) * pgSize) :
    b.first.physicalStart ≤ x ∧ x < b.stop := by
  rw [pages, Finset.mem_Ico, lo, hi] at hp
  unfold pgSize at *
  omega

theorem marked_isFreePage_iff (map : UefiMap) :
    (∀ p, (memPageInit map).Marked p → map.IsFreePage p) ↔ map.MisplacedOnFree := by
  constructor
  · intro hmarked b hb pre d post _ _ x _ _ htakes
    refine hmarked _ ((marked_iff_takes map _).mpr ⟨b, hb, htakes⟩) x ?_ ?_
    · exact Nat.div_mul_le_self x pgSize
    · exact Nat.lt_mul_of_div_lt (Nat.lt_succ_self _) (by decide)
  · intro hmisplaced p hp x hle hlt
    obtain ⟨b, hb, htakes⟩ := (marked_iff_takes map p).mp hp
    have hspan := b.span_of_mem_pages htakes.1 hle hlt
    obtain ⟨pre, d, post, hsplit, hpre, hpost⟩ := exists_place _ b.members hspan.1 hspan.2
    obtain ⟨hblock, hfree⟩ := mem_freeBlocks.mp hb
    have hd : d ∈ b.members := by simp [hsplit]
    by_cases hplace : d.physicalStart = b.place pre
    · refine ⟨d, UefiMap.mem_descriptors hblock hd, ?_, ?_⟩
      · exact (UefiMap.memoryType_of_mem_blocks hblock hd).trans hfree
      · rw [EfiMemoryDescriptor.Covers, hplace]
        exact ⟨hpre, hpost⟩
    · refine hmisplaced b hb pre d post hsplit hplace x hpre hpost ?_
      have hdiv : x / pgSize = p := by
        unfold pgSize at *
        omega
      rwa [hdiv]

/-- What is free or handed out was marked at start-up. -/
theorem bootSystem_marked {map : UefiMap} {s : FrameState}
    (hreach : (bootSystem map).Reachable s) :
    (∀ p ∈ s.mem.freeFrames, (memPageInit map).Marked p) ∧
      ∀ a ∈ s.live, ∀ p ∈ allocFrames a, (memPageInit map).Marked p := by
  refine hreach.invariant
    (P := fun s => (∀ p ∈ s.mem.freeFrames, (memPageInit map).Marked p) ∧
      ∀ a ∈ s.live, ∀ p ∈ allocFrames a, (memPageInit map).Marked p) ?_ ?_
  · rintro s rfl
    exact ⟨fun p hp => (Mem.mem_freeFrames.mp hp).2, by simp⟩
  · rintro s (n | ⟨addr, n⟩) t ⟨hfree, hlive⟩ - hstep
    · rcases frameStep_alloc hstep with rfl | ⟨index, hfirst, hcons, hrest⟩
      · exact ⟨hfree, hlive⟩
      · refine ⟨fun p hp => ?_, ?_⟩
        · rw [hrest] at hp
          exact hfree p (Finset.mem_sdiff.mp hp).1
        · rw [hcons]
          refine List.forall_mem_cons.mpr ⟨fun p hp => ?_, hlive⟩
          rw [allocFrames_mk, Finset.mem_Ico] at hp
          exact hfree p (hfirst.run p hp.1 hp.2)
    · obtain ⟨hmem, herase, hsub⟩ := frameStep_free hstep
      refine ⟨fun p hp => ?_, fun a ha => ?_⟩
      · rcases Finset.mem_union.mp (hsub hp) with hp | hp
        · exact hfree p hp
        · exact hlive _ hmem p hp
      · rw [herase] at ha
        exact hlive a (List.erase_subset ha)

/-- Start-up marks free memory only exactly when every misplaced descriptor of a
free block is put on free memory. -/
theorem memPageInit_onlyFree_iff (map : UefiMap) : map.OnlyFree ↔ map.MisplacedOnFree := by
  rw [← marked_isFreePage_iff]
  constructor
  · exact And.left
  · intro hmarked
    exact ⟨hmarked, fun s hreach a ha p hp =>
      hmarked p ((bootSystem_marked hreach).2 a ha p hp)⟩

/-- Every member of the block lies where the walk puts it. -/
def Block.InPlace (b : Block) : Prop :=
  ∀ pre d post, b.members = pre ++ d :: post → d.physicalStart = b.place pre

theorem Block.inPlace_singleton (e : EfiMemoryDescriptor) : (⟨e, []⟩ : Block).InPlace := by
  intro pre d post hsplit
  cases pre with
  | nil =>
      obtain ⟨rfl, -⟩ := List.cons.inj hsplit
      simp [place]
  | cons c pre => simp [members] at hsplit

theorem inPlace_blocksFrom {b : Block} {ds : List EfiMemoryDescriptor} (hb : b.InPlace)
    (hstop : ∀ d ∈ ds, b.stop ≤ d.physicalStart)
    (hasc : ds.Pairwise fun d e => d.physicalStart + d.size ≤ e.physicalStart) :
    ∀ c ∈ blocksFrom b ds, c.InPlace := by
  induction ds generalizing b with
  | nil => simpa [blocksFrom] using hb
  | cons e ds ih =>
      rw [List.forall_mem_cons] at hstop
      rw [List.pairwise_cons] at hasc
      rw [blocksFrom]
      by_cases hbreak : b.stop < e.physicalStart ∨ memoryType e.type ≠ memoryType b.first.type
      · rw [if_pos hbreak]
        refine List.forall_mem_cons.mpr ⟨hb, ih ?_ ?_ hasc.2⟩
        · exact Block.inPlace_singleton e
        · simpa [Block.stop, Block.members] using hasc.1
      · have heq : e.physicalStart = b.stop :=
          le_antisymm (Nat.le_of_not_lt (not_or.mp hbreak).1) hstop.1
        rw [if_neg hbreak]
        refine ih ?_ (fun d hd => ?_) hasc.2
        · intro pre d post hsplit
          rw [Block.members_extend] at hsplit
          rcases List.eq_nil_or_concat post with rfl | ⟨post', z, rfl⟩
          · obtain ⟨rfl, rfl⟩ : b.members = pre ∧ e = d := by
              simpa using List.append_inj' hsplit rfl
            exact heq
          · refine hb pre d post' ?_
            rw [List.concat_eq_append, ← List.cons_append, ← List.append_assoc] at hsplit
            exact (List.append_inj' hsplit rfl).1
        · rw [Block.stop_extend, ← heq]
          exact hasc.1 d hd

/-- On a map listed in ascending order no byte is misplaced. -/
theorem misplacedOnFree_of_ascending {map : UefiMap}
    (hasc : map.descriptors.Pairwise fun d e => d.physicalStart + d.size ≤ e.physicalStart) :
    map.MisplacedOnFree := by
  intro b hb pre d post hsplit hmiss
  refine absurd ?_ hmiss
  have hblock := (mem_freeBlocks.mp hb).1
  unfold UefiMap.blocks at hblock
  cases hds : map.descriptors with
  | nil => simp [hds] at hblock
  | cons e ds =>
      rw [hds] at hblock hasc
      rw [List.pairwise_cons] at hasc
      refine inPlace_blocksFrom ?_ ?_ hasc.2 b hblock pre d post hsplit
      · exact Block.inPlace_singleton e
      · simpa [Block.stop, Block.members] using hasc.1

/-- A map whose second descriptor lies below the first one: the sizes of both are
added up from the start of the first, over the reserved memory behind it. -/
def misorderedMap : UefiMap where
  descriptors :=
    [⟨.efiConventionalMemory, 16 * pgSize, 112 * 512⟩,
     ⟨.efiBootServicesData, 4 * pgSize, 8 * 512⟩,
     ⟨.efiReservedMemoryType, 128 * pgSize, 8 * 512⟩,
     ⟨.efiConventionalMemory, 136 * pgSize, 64 * 512⟩]
  disjoint := List.Pairwise.imp EfiMemoryDescriptor.not_covers_both (by decide)
  within := by decide
  count_lt := by decide

theorem misorderedMap_blocks : misorderedMap.blocks =
    [⟨⟨.efiConventionalMemory, 16 * pgSize, 112 * 512⟩,
      [⟨.efiBootServicesData, 4 * pgSize, 8 * 512⟩]⟩,
     ⟨⟨.efiReservedMemoryType, 128 * pgSize, 8 * 512⟩, []⟩,
     ⟨⟨.efiConventionalMemory, 136 * pgSize, 64 * 512⟩, []⟩] := by
  simp [UefiMap.blocks, misorderedMap, blocksFrom, Block.extend, Block.stop, Block.members,
    EfiMemoryDescriptor.size, memoryType, pgSize]

/-- Page 128 of the misordered map is reserved and may be handed out. -/
theorem misorderedMap_not_onlyFree :
    128 ∈ (memPageInit misorderedMap).freeFrames ∧ ¬ misorderedMap.IsFreePage 128 ∧
      ¬ misorderedMap.OnlyFree := by
  have htotal : misorderedMap.pageTotal = 184 := by
    rw [UefiMap.pageTotal, misorderedMap_blocks]
    rfl
  have hmarked : (memPageInit misorderedMap).Marked 128 := by
    rw [memPageInit_marked, misorderedMap_blocks]
    refine ⟨⟨by decide, _, List.mem_cons_self, ?_⟩, by omega⟩
    rw [Block.pages, Finset.mem_Ico]
    decide
  have hreserved : ¬ misorderedMap.IsFreePage 128 := by
    intro hpage
    obtain ⟨d, hd, hfree, hcover⟩ := hpage (128 * pgSize) le_rfl (by decide)
    revert d
    decide
  refine ⟨Mem.mem_freeFrames.mpr ⟨?_, hmarked⟩, hreserved, fun h => hreserved (h.1 128 hmarked)⟩
  rw [memPageInit_btmpBytesLen, htotal]
  decide

/-! ## The counter, the bitmap and the map agree -/

/-- The state after start-up is consistent: `free_pages` is the number of set bits
searched, and every free page of the map but the three reserved ones is one. -/
def UefiMap.Consistent (map : UefiMap) : Prop :=
  (memPageInit map).freePages = (memPageInit map).freeFrames.card ∧
    ∀ p, 3 ≤ p → p < pageBitmapBytesLen * 8 → map.IsFreePage p →
      p ∈ (memPageInit map).freeFrames

/-- The pages below the capacity of the bitmap that are not reserved. -/
def openPages : Finset Nat := Finset.Ico 3 (pageBitmapBytesLen * 8)

/-- Nothing is counted and nothing was to be found; or so many fragments were met
that `total_pages` wrapped around, and the blocks are disjoint, lie between the
reserved pages and the capacity, and hold every free page. -/
def UefiMap.CountsFit (map : UefiMap) : Prop :=
  (pageCount map.blocks = 0 ∧ ∀ p ∈ openPages, ¬ map.IsFreePage p) ∨
  (pageCount map.blocks < fragmentCount map.blocks ∧
    ((freeBlocks map.blocks).map Block.pages).Pairwise Disjoint ∧
    (∀ b ∈ freeBlocks map.blocks, b.pages ⊆ openPages) ∧
    ∀ p ∈ openPages, map.IsFreePage p → ∃ b ∈ freeBlocks map.blocks, p ∈ b.pages)

theorem pageCount_eq_sum_card (bs : List Block) :
    pageCount bs = (((freeBlocks bs).map Block.pages).map Finset.card).sum := by
  have hcard : (fun b : Block => b.hi - b.lo) = Finset.card ∘ Block.pages := by
    funext b
    rw [Function.comp_apply, Block.pages, Nat.card_Ico]
  rw [pageCount, hcard, List.map_map]

theorem memPageInit_freeFrames_subset (map : UefiMap) :
    (memPageInit map).freeFrames ⊆
      Finset.Ico 3 ((memPageInit map).pageBitmap.btmpBytesLen * 8) := by
  intro p hp
  obtain ⟨hlen, hmarked⟩ := Mem.mem_freeFrames.mp hp
  have hlow := ((memPageInit_marked map p).mp hmarked).2
  rw [memPageInit_btmpBytesLen, pageBitmapBytesLen] at *
  rw [Finset.mem_Ico]
  omega

/-- With as many pages as fragments at least, the searched part of the bitmap is
too short for the pages counted. -/
theorem consistent_iff_of_le {map : UefiMap}
    (hle : fragmentCount map.blocks ≤ pageCount map.blocks) :
    map.Consistent ↔ pageCount map.blocks = 0 ∧ ∀ p ∈ openPages, ¬ map.IsFreePage p := by
  have htotal : map.pageTotal = pageCount map.blocks - fragmentCount map.blocks := by
    have := map.pageCount_blocks_le
    exact sub64_of_le hle (by unfold wordSize; omega)
  have hsub := memPageInit_freeFrames_subset map
  have hcard := Finset.card_le_card hsub
  rw [memPageInit_btmpBytesLen, Nat.card_Ico, pageBitmapBytesLen] at hcard
  constructor
  · rintro ⟨hcount, hmarked⟩
    rw [memPageInit_freePages] at hcount
    have hzero : pageCount map.blocks = 0 := by omega
    refine ⟨hzero, fun p hp hpage => ?_⟩
    rw [openPages, Finset.mem_Ico] at hp
    have hmem := hmarked p hp.1 hp.2 hpage
    rw [Finset.card_eq_zero.mp (by omega : (memPageInit map).freeFrames.card = 0)] at hmem
    simp at hmem
  · rintro ⟨hzero, hnone⟩
    refine ⟨?_, fun p hlow hcap hpage => absurd hpage (hnone p ?_)⟩
    · rw [memPageInit_freePages]
      omega
    · rw [openPages, Finset.mem_Ico]
      exact ⟨hlow, hcap⟩

/-- With more fragments than pages the whole bitmap is searched. -/
theorem memPageInit_freeFrames_of_lt {map : UefiMap}
    (hlt : pageCount map.blocks < fragmentCount map.blocks) :
    (memPageInit map).freeFrames =
      listUnion ((freeBlocks map.blocks).map Block.pages) ∩ openPages := by
  have hfragment := map.fragmentCount_blocks_lt
  have htotal : 2 ^ 32 ≤ map.pageTotal := by
    unfold UefiMap.pageTotal sub64 wordSize
    omega
  ext p
  have hunion : (∃ b ∈ freeBlocks map.blocks, p ∈ b.pages) ↔
      p ∈ listUnion ((freeBlocks map.blocks).map Block.pages) := by
    rw [mem_listUnion]
    exact ⟨fun ⟨b, hb, hp⟩ => ⟨_, List.mem_map_of_mem hb, hp⟩, fun ⟨f, hf, hp⟩ => by
      obtain ⟨b, hb, rfl⟩ := List.mem_map.mp hf
      exact ⟨b, hb, hp⟩⟩
  have hlen : min (map.pageTotal / 8) pageBitmapBytesLen = pageBitmapBytesLen :=
    Nat.min_eq_right (by unfold pageBitmapBytesLen; omega)
  rw [Mem.mem_freeFrames, memPageInit_btmpBytesLen, memPageInit_marked, hunion, hlen,
    Finset.mem_inter, openPages, Finset.mem_Ico]
  constructor
  · rintro ⟨-, ⟨hcap, hp⟩, hlow⟩
    exact ⟨hp, by omega, hcap⟩
  · rintro ⟨hp, hlow, hcap⟩
    exact ⟨hcap, ⟨hcap, hp⟩, by omega⟩

theorem consistent_iff_of_lt {map : UefiMap}
    (hlt : pageCount map.blocks < fragmentCount map.blocks) :
    map.Consistent ↔
      ((freeBlocks map.blocks).map Block.pages).Pairwise Disjoint ∧
      (∀ b ∈ freeBlocks map.blocks, b.pages ⊆ openPages) ∧
      ∀ p ∈ openPages, map.IsFreePage p → ∃ b ∈ freeBlocks map.blocks, p ∈ b.pages := by
  have hcount := card_listUnion_inter_eq_iff ((freeBlocks map.blocks).map Block.pages) openPages
  rw [← pageCount_eq_sum_card, List.forall_mem_map] at hcount
  have hmem (p : Nat) (hp : p ∈ openPages) : p ∈ (memPageInit map).freeFrames ↔
      ∃ b ∈ freeBlocks map.blocks, p ∈ b.pages := by
    rw [memPageInit_freeFrames_of_lt hlt, Finset.mem_inter, mem_listUnion]
    simp [hp]
  rw [UefiMap.Consistent, memPageInit_freePages, eq_comm, memPageInit_freeFrames_of_lt hlt,
    hcount, and_assoc, ← memPageInit_freeFrames_of_lt hlt]
  refine and_congr_right fun _ => and_congr_right fun _ => ?_
  constructor
  · intro hall p hp hpage
    obtain ⟨hlow, hcap⟩ := Finset.mem_Ico.mp hp
    exact (hmem p hp).mp (hall p hlow hcap hpage)
  · intro hall p hlow hcap hpage
    have hp : p ∈ openPages := Finset.mem_Ico.mpr ⟨hlow, hcap⟩
    exact (hmem p hp).mpr (hall p hp hpage)

/-- The state after start-up is consistent exactly for the maps whose counts fit. -/
theorem memPageInit_consistent_iff (map : UefiMap) : map.Consistent ↔ map.CountsFit := by
  by_cases hlt : pageCount map.blocks < fragmentCount map.blocks
  · rw [consistent_iff_of_lt hlt]
    constructor
    · exact fun h => Or.inr ⟨hlt, h⟩
    · rintro (⟨hzero, hnone⟩ | ⟨-, h⟩)
      · -- Blocks without a page are disjoint and lie anywhere.
        have hempty (b : Block) (hb : b ∈ freeBlocks map.blocks) : b.pages = ∅ := by
          rw [pageCount_eq_sum_card, List.sum_eq_zero_iff_forall_eq_nat] at hzero
          exact Finset.card_eq_zero.mp
            (hzero _ (List.mem_map_of_mem (List.mem_map_of_mem hb)))
        refine ⟨List.pairwise_map.mpr (List.pairwise_of_forall_mem_list fun a ha b _ => ?_),
          fun b hb => ?_, fun p hp hpage => absurd hpage (hnone p hp)⟩
        · rw [hempty a ha]
          exact Finset.disjoint_empty_left _
        · rw [hempty b hb]
          exact Finset.empty_subset _
      · exact h
  · rw [consistent_iff_of_le (Nat.le_of_not_lt hlt)]
    constructor
    · exact Or.inl
    · rintro (h | ⟨h, -⟩)
      · exact h
      · exact absurd h hlt

/-- A map with one free descriptor: 64 pages from page 32 on. -/
def highMap : UefiMap where
  descriptors := [⟨.efiConventionalMemory, 32 * pgSize, 64 * 512⟩]
  disjoint := List.pairwise_singleton _ _
  within := by decide
  count_lt := by decide

/-- Page 64 of the map is free and not searched, and half of the pages counted
are not there. -/
theorem highMap_not_consistent :
    highMap.IsFreePage 64 ∧ 64 ∉ (memPageInit highMap).freeFrames ∧
      (memPageInit highMap).freePages = 64 ∧ (memPageInit highMap).freeFrames.card ≤ 61 ∧
      ¬ highMap.Consistent := by
  have hblocks : highMap.blocks =
      [⟨⟨.efiConventionalMemory, 32 * pgSize, 64 * 512⟩, []⟩] := rfl
  have hcount : (memPageInit highMap).freePages = 64 := by
    rw [memPageInit_freePages, hblocks]
    rfl
  have htotal : highMap.pageTotal = 64 := by
    rw [UefiMap.pageTotal, hblocks]
    rfl
  have hsub : (memPageInit highMap).freeFrames ⊆ Finset.Ico 3 64 := by
    have hsub := memPageInit_freeFrames_subset highMap
    rwa [memPageInit_btmpBytesLen, htotal] at hsub
  have hcard := Finset.card_le_card hsub
  rw [Nat.card_Ico] at hcard
  have hpage : highMap.IsFreePage 64 := fun x hle hlt =>
    ⟨_, List.mem_singleton_self _, rfl, by
      show 32 * pgSize ≤ x ∧ x < 32 * pgSize + 64 * 512 * 4096
      unfold pgSize at *
      omega⟩
  have hmiss : 64 ∉ (memPageInit highMap).freeFrames := fun hmem => by
    have := (Finset.mem_Ico.mp (hsub hmem)).2
    omega
  exact ⟨hpage, hmiss, hcount, hcard, fun h => hmiss (h.2 64 (by decide) (by decide) hpage)⟩

end ClayFigure
