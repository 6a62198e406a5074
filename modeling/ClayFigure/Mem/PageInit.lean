/-
# Start-up of the frame allocator from the UEFI memory map

`mem_page_init` walks the memory map once, merges consecutive descriptors of one
memory type, marks the whole pages of the merged free regions, and derives the
counters and the length of the bitmap from them. The result is described here in
terms of the map alone: which descriptors are merged into one block, and which
pages a block is taken to hold.
-/

import ClayFigure.Math.ListUnion
import ClayFigure.Mem.Frame

namespace ClayFigure

open ClayFigure.Math

/-! ## The memory map -/

/-- `EFI_MEMORY_TYPE`; `other` stands for the codes outside the enumeration. -/
inductive EfiMemoryType
  | efiReservedMemoryType
  | efiLoaderCode
  | efiLoaderData
  | efiBootServicesCode
  | efiBootServicesData
  | efiRuntimeServicesCode
  | efiRuntimeServicesData
  | efiConventionalMemory
  | efiUnusableMemory
  | efiACPIReclaimMemory
  | efiACPIMemoryNVS
  | efiMemoryMappedIo
  | efiMemoryMappedIoPortSpace
  | efiPalCode
  | efiMaxMemoryType
  | other (code : Nat)
  deriving DecidableEq, Repr

/-- `memory_type_t`. -/
inductive MemoryType
  | freeMemory
  | reservedMemory
  | acpiMemory
  | acpiMemoryNvs
  | unuseableMemory
  | maxMemoryType
  deriving DecidableEq, Repr

/-- `memory_type`. -/
def memoryType : EfiMemoryType → MemoryType
  | .efiConventionalMemory => .freeMemory
  | .efiBootServicesCode => .freeMemory
  | .efiBootServicesData => .freeMemory
  | .efiLoaderCode => .freeMemory
  | .efiLoaderData => .reservedMemory
  | .efiRuntimeServicesCode => .reservedMemory
  | .efiRuntimeServicesData => .reservedMemory
  | .efiMemoryMappedIo => .reservedMemory
  | .efiMemoryMappedIoPortSpace => .reservedMemory
  | .efiPalCode => .reservedMemory
  | .efiReservedMemoryType => .reservedMemory
  | .efiACPIReclaimMemory => .acpiMemory
  | .efiACPIMemoryNVS => .acpiMemoryNvs
  | .efiUnusableMemory => .unuseableMemory
  | .efiMaxMemoryType => .unuseableMemory
  | .other _ => .maxMemoryType

/-- The fields of `EFI_MEMORY_DESCRIPTOR` that the kernel reads. -/
structure EfiMemoryDescriptor where
  type : EfiMemoryType
  physicalStart : Nat
  numberOfPages : Nat
  deriving DecidableEq, Repr

namespace EfiMemoryDescriptor

/-- `NumberOfPages << 12` in a 64-bit word. -/
def currSize (d : EfiMemoryDescriptor) : Nat := (d.numberOfPages <<< 12) % wordSize

/-- The number of bytes described. -/
def size (d : EfiMemoryDescriptor) : Nat := d.numberOfPages * 4096

/-- Byte `x` lies in the descriptor. -/
def Covers (d : EfiMemoryDescriptor) (x : Nat) : Prop :=
  d.physicalStart ≤ x ∧ x < d.physicalStart + d.size

/-- The bytes described. -/
def bytes (d : EfiMemoryDescriptor) : Finset Nat :=
  Finset.Ico d.physicalStart (d.physicalStart + d.size)

instance (d : EfiMemoryDescriptor) (x : Nat) : Decidable (d.Covers x) :=
  inferInstanceAs (Decidable (_ ∧ _))

theorem not_covers_both {d e : EfiMemoryDescriptor}
    (h : d.physicalStart + d.size ≤ e.physicalStart ∨
      e.physicalStart + e.size ≤ d.physicalStart) (x : Nat) : ¬ (d.Covers x ∧ e.Covers x) := by
  unfold Covers
  omega

theorem currSize_of_lt {d : EfiMemoryDescriptor} (h : d.size < wordSize) :
    d.currSize = d.size := by
  rw [currSize, Nat.shiftLeft_eq]
  exact Nat.mod_eq_of_lt h

end EfiMemoryDescriptor

/-- A UEFI memory map: the descriptors are disjoint, they lie inside the 52-bit
physical address space, and their number fits the `int` that counts them. -/
structure UefiMap where
  descriptors : List EfiMemoryDescriptor
  disjoint : descriptors.Pairwise fun d e => ∀ x, ¬ (d.Covers x ∧ e.Covers x)
  within : ∀ d ∈ descriptors, d.physicalStart + d.size ≤ 2 ^ 52
  count_lt : descriptors.length < 2 ^ 31

/-! ## The code -/

/-- `page_size_round_up`. -/
def pageSizeRoundUp (pageAddr : Nat) : Nat := add64 pageAddr (pgSize - 1) / pgSize

/-- `page_size_round_down`. -/
def pageSizeRoundDown (pageAddr : Nat) : Nat := pageAddr / pgSize

/-- The `mem_*` variables of one pass of the outer loop, and `curr_type`. -/
structure Region where
  memStart : Nat
  memSize : Nat
  memEnd : Nat
  currType : MemoryType
  deriving DecidableEq, Repr

/-- The values at the top of the outer loop. -/
def Region.ofDescriptor (d : EfiMemoryDescriptor) : Region where
  memStart := d.physicalStart
  memSize := d.currSize
  memEnd := add64 d.physicalStart d.currSize
  currType := memoryType d.type

/-- One pass of the inner loop that does not break. -/
def Region.merge (r : Region) (d : EfiMemoryDescriptor) : Region :=
  { r with memSize := add64 r.memSize d.currSize, memEnd := add64 r.memEnd d.currSize }

/-- The two nested loops share their index: a descriptor either extends the
current region or breaks the inner loop and starts the next one. -/
def mergeRegions (r : Region) : List EfiMemoryDescriptor → List Region
  | [] => [r]
  | d :: ds =>
      if r.memEnd < d.physicalStart then r :: mergeRegions (.ofDescriptor d) ds
      else if memoryType d.type ≠ r.currType then r :: mergeRegions (.ofDescriptor d) ds
      else mergeRegions (r.merge d) ds

namespace Mem

/-- The bookkeeping for one merged region. The size of a fragment inside one page
is negative and wraps. -/
def addRegion (m : Mem) (r : Region) : Mem :=
  if r.currType = .freeMemory then
    let bitStart := pageSizeRoundUp r.memStart
    let bitEnd := pageSizeRoundDown r.memEnd
    let bitSize := sub64 bitEnd bitStart
    let totalFreePages :=
      if bitEnd > bitStart then add64 m.totalFreePages bitSize else m.totalFreePages
    { pageBitmap := m.pageBitmap.setBits bitStart (bitEnd - bitStart) 1
      memSize := add64 m.memSize r.memSize
      totalPages := add64 m.totalPages bitSize
      totalFreePages := totalFreePages
      freePages := if bitEnd > bitStart then totalFreePages else m.freePages }
  else m

/-- The record before the walk. -/
def start : Mem where
  pageBitmap := Bitmap.initBitmap ⟨pageBitmapBytesLen, Vector.replicate _ 0#8, le_rfl⟩
  memSize := 0
  totalPages := 0
  totalFreePages := 0
  freePages := 0

/-- The bitmap gets a byte for every eight pages counted. -/
def fitBitmap (m : Mem) : Mem :=
  if h : m.totalPages / 8 ≤ pageBitmapBytesLen then
    { m with pageBitmap := { m.pageBitmap with btmpBytesLen := m.totalPages / 8, len_le := h } }
  else m

/-- The three pages below 6 MiB are taken out; `free_pages` is left as it is. -/
def reserveLowPages (m : Mem) : Mem :=
  { m with
    pageBitmap := m.pageBitmap.setBits 0 3 0
    totalFreePages := sub64 m.totalFreePages 3 }

end Mem

/-- `mem_page_init`. -/
def memPageInit (map : UefiMap) : Mem :=
  match map.descriptors with
  | [] => Mem.start.fitBitmap.reserveLowPages
  | d :: ds =>
      ((mergeRegions (.ofDescriptor d) ds).foldl Mem.addRegion
        Mem.start).fitBitmap.reserveLowPages

/-! ## Blocks of descriptors -/

/-- The sum of the sizes of some descriptors. -/
def extent (ds : List EfiMemoryDescriptor) : Nat :=
  (ds.map EfiMemoryDescriptor.size).sum

@[simp]
theorem extent_nil : extent [] = 0 := rfl

@[simp]
theorem extent_cons (d : EfiMemoryDescriptor) (ds : List EfiMemoryDescriptor) :
    extent (d :: ds) = d.size + extent ds := by
  simp [extent]

@[simp]
theorem extent_append (ds es : List EfiMemoryDescriptor) :
    extent (ds ++ es) = extent ds + extent es := by
  simp [extent]

/-- Consecutive descriptors that the walk merges. -/
structure Block where
  first : EfiMemoryDescriptor
  rest : List EfiMemoryDescriptor

namespace Block

def members (b : Block) : List EfiMemoryDescriptor := b.first :: b.rest

/-- The address the walk takes for the end of the block. -/
def stop (b : Block) : Nat := b.first.physicalStart + extent b.members

/-- The walk takes the block for free memory. -/
def IsFree (b : Block) : Prop := memoryType b.first.type = .freeMemory

instance : DecidablePred IsFree := fun _ => inferInstanceAs (Decidable (_ = _))

/-- The first whole page of the block. -/
def lo (b : Block) : Nat := (b.first.physicalStart + (pgSize - 1)) / pgSize

/-- The page behind the last whole page of the block. -/
def hi (b : Block) : Nat := b.stop / pgSize

/-- The pages the walk takes to lie in the block. -/
def pages (b : Block) : Finset Nat := Finset.Ico b.lo b.hi

/-- The block with one more descriptor. -/
def extend (b : Block) (d : EfiMemoryDescriptor) : Block := ⟨b.first, b.rest ++ [d]⟩

@[simp]
theorem members_extend (b : Block) (d : EfiMemoryDescriptor) :
    (b.extend d).members = b.members ++ [d] := rfl

@[simp]
theorem stop_extend (b : Block) (d : EfiMemoryDescriptor) :
    (b.extend d).stop = b.stop + d.size := by
  simp [stop, extend, members]
  omega

end Block

/-- The blocks from `b` on: a descriptor joins the current block when it has its
type and does not start above its end. -/
def blocksFrom (b : Block) : List EfiMemoryDescriptor → List Block
  | [] => [b]
  | d :: ds =>
      if b.stop < d.physicalStart ∨ memoryType d.type ≠ memoryType b.first.type then
        b :: blocksFrom ⟨d, []⟩ ds
      else blocksFrom (b.extend d) ds

namespace UefiMap

/-- The blocks of a map. -/
def blocks (map : UefiMap) : List Block :=
  match map.descriptors with
  | [] => []
  | d :: ds => blocksFrom ⟨d, []⟩ ds

/-- Byte `x` lies in a descriptor of free memory. -/
def IsFreeByte (map : UefiMap) (x : Nat) : Prop :=
  ∃ d ∈ map.descriptors, memoryType d.type = .freeMemory ∧ d.Covers x

/-- Every byte of page `p` lies in descriptors of free memory. -/
def IsFreePage (map : UefiMap) (p : Nat) : Prop :=
  ∀ x, p * pgSize ≤ x → x < (p + 1) * pgSize → map.IsFreeByte x

end UefiMap

/-- The free ones among some blocks. -/
def freeBlocks (bs : List Block) : List Block := bs.filter Block.IsFree

/-- The pages counted for the free ones among some blocks. -/
def pageCount (bs : List Block) : Nat := ((freeBlocks bs).map fun b => b.hi - b.lo).sum

/-- The free ones among some blocks that start and end inside one page; the walk
counts each of them as minus one page. -/
def fragmentCount (bs : List Block) : Nat :=
  (freeBlocks bs).countP fun b => b.hi < b.lo

/-! ## The walk computes the blocks -/

/-- What the walk has in its variables for a block. -/
def Block.region (b : Block) : Region where
  memStart := b.first.physicalStart
  memSize := extent b.members
  memEnd := b.stop
  currType := memoryType b.first.type

theorem flatMap_members_blocksFrom (b : Block) (ds : List EfiMemoryDescriptor) :
    (blocksFrom b ds).flatMap Block.members = b.members ++ ds := by
  induction ds generalizing b with
  | nil => simp [blocksFrom]
  | cons d ds ih =>
      rw [blocksFrom]
      split
      · rw [List.flatMap_cons, ih]
        rfl
      · rw [ih, Block.members_extend, List.append_assoc]
        rfl

/-- Without overflow the walk computes the blocks. -/
theorem mergeRegions_region (b : Block) (ds : List EfiMemoryDescriptor)
    (hstart : ∀ d ∈ b.members ++ ds, d.physicalStart ≤ 2 ^ 52)
    (hextent : extent (b.members ++ ds) ≤ 2 ^ 52) :
    mergeRegions b.region ds = (blocksFrom b ds).map Block.region := by
  induction ds generalizing b with
  | nil => rfl
  | cons d ds ih =>
      have hd := hstart d (by simp)
      have hfirst := hstart b.first (by simp [Block.members])
      rw [extent_append, extent_cons] at hextent
      have hsize : d.currSize = d.size :=
        EfiMemoryDescriptor.currSize_of_lt (by unfold wordSize; omega)
      have hnext : Region.ofDescriptor d = (⟨d, []⟩ : Block).region := by
        rw [Region.ofDescriptor, hsize, add64_of_lt (by unfold wordSize; omega)]
        simp [Block.region, Block.stop, Block.members]
      have hmerge : b.region.merge d = (b.extend d).region := by
        have hsum : add64 (extent b.members) d.size = extent (b.extend d).members := by
          rw [add64_of_lt (by unfold wordSize; omega)]
          simp
        have hend : add64 b.stop d.size = (b.extend d).stop := by
          rw [add64_of_lt (by unfold wordSize Block.stop; omega), Block.stop_extend]
        rw [Region.merge, hsize, Block.region, hsum, hend]
        rfl
      have htail := ih ⟨d, []⟩
        (fun e he => hstart e (List.mem_append_right _ (by simpa [Block.members] using he)))
        (by simpa [Block.members] using (by omega : d.size + extent ds ≤ 2 ^ 52))
      rw [mergeRegions, blocksFrom]
      have hend : b.region.memEnd = b.stop := rfl
      have hcurr : b.region.currType = memoryType b.first.type := rfl
      rw [hend, hcurr, hnext]
      by_cases hgap : b.stop < d.physicalStart
      · rw [if_pos hgap, if_pos (Or.inl hgap), htail, List.map_cons]
      · by_cases htype : memoryType d.type = memoryType b.first.type
        · have hjoin : ¬ (b.stop < d.physicalStart ∨
              memoryType d.type ≠ memoryType b.first.type) :=
            not_or.mpr ⟨hgap, not_not.mpr htype⟩
          rw [if_neg hgap, if_neg (not_not.mpr htype), if_neg hjoin, hmerge]
          refine ih (b.extend d) ?_ ?_
          · simpa using hstart
          · simpa using (by omega : extent b.members + (d.size + extent ds) ≤ 2 ^ 52)
        · rw [if_neg hgap, if_pos htype, if_pos (Or.inr htype), htail, List.map_cons]

/-- Disjoint descriptors inside an address space are no larger than it. -/
theorem extent_le {ds : List EfiMemoryDescriptor} {bound : Nat}
    (hdisjoint : ds.Pairwise fun d e => ∀ x, ¬ (d.Covers x ∧ e.Covers x))
    (hwithin : ∀ d ∈ ds, d.physicalStart + d.size ≤ bound) : extent ds ≤ bound := by
  have hpair : (ds.map EfiMemoryDescriptor.bytes).Pairwise Disjoint := by
    rw [List.pairwise_map]
    refine hdisjoint.imp fun hde => Finset.disjoint_left.mpr fun x hd he => hde x ?_
    exact ⟨Finset.mem_Ico.mp hd, Finset.mem_Ico.mp he⟩
  have hsub : listUnion (ds.map EfiMemoryDescriptor.bytes) ⊆ Finset.range bound := by
    intro x hx
    obtain ⟨f, hf, hxf⟩ := mem_listUnion.mp hx
    obtain ⟨d, hd, rfl⟩ := List.mem_map.mp hf
    have hlast := hwithin d hd
    rw [EfiMemoryDescriptor.bytes, Finset.mem_Ico] at hxf
    exact Finset.mem_range.mpr (by omega)
  have hcard := Finset.card_le_card hsub
  have hsize : Finset.card ∘ EfiMemoryDescriptor.bytes = EfiMemoryDescriptor.size := by
    funext d
    simp [EfiMemoryDescriptor.bytes]
  rwa [card_listUnion hpair, Finset.card_range, List.map_map, hsize] at hcard

/-! ## The bookkeeping of the walk -/

@[simp]
theorem freeBlocks_append (bs cs : List Block) :
    freeBlocks (bs ++ cs) = freeBlocks bs ++ freeBlocks cs := by
  simp [freeBlocks]

@[simp]
theorem pageCount_append (bs cs : List Block) :
    pageCount (bs ++ cs) = pageCount bs + pageCount cs := by
  simp [pageCount]

@[simp]
theorem fragmentCount_append (bs cs : List Block) :
    fragmentCount (bs ++ cs) = fragmentCount bs + fragmentCount cs := by
  simp [fragmentCount]

theorem freeBlocks_singleton {b : Block} (hb : b.IsFree) : freeBlocks [b] = [b] := by
  simp [freeBlocks, hb]

theorem freeBlocks_singleton_of_not {b : Block} (hb : ¬ b.IsFree) : freeBlocks [b] = [] := by
  simp [freeBlocks, hb]

theorem pageCount_singleton {b : Block} (hb : b.IsFree) : pageCount [b] = b.hi - b.lo := by
  rw [pageCount, freeBlocks_singleton hb, List.map_singleton, List.sum_singleton]

namespace Block

/-- A block short of one whole page counts as minus one page, never less. -/
theorem lo_le_succ_hi (b : Block) : b.lo ≤ b.hi + 1 := by
  unfold lo hi stop pgSize
  omega

theorem hi_sub_lo_le (b : Block) : b.hi - b.lo ≤ extent b.members := by
  unfold lo hi stop pgSize
  omega

end Block

theorem pageCount_le (bs : List Block) :
    pageCount bs ≤ extent (bs.flatMap Block.members) := by
  induction bs with
  | nil => simp [pageCount, freeBlocks]
  | cons b bs ih =>
      have hsplit : pageCount (b :: bs) = pageCount [b] + pageCount bs := by
        rw [← pageCount_append, List.singleton_append]
      have hone : pageCount [b] ≤ extent b.members := by
        by_cases hb : b.IsFree
        · rw [pageCount_singleton hb]
          exact b.hi_sub_lo_le
        · simp [pageCount, freeBlocks_singleton_of_not hb]
      rw [hsplit, List.flatMap_cons, extent_append]
      omega

theorem length_le_flatMap_members (bs : List Block) :
    bs.length ≤ (bs.flatMap Block.members).length := by
  induction bs with
  | nil => simp
  | cons b bs ih =>
      simp only [List.flatMap_cons, List.length_append, List.length_cons, Block.members]
      omega

theorem fragmentCount_le (bs : List Block) : fragmentCount bs ≤ bs.length := by
  have hcount : fragmentCount bs ≤ (freeBlocks bs).length := by
    unfold fragmentCount
    exact List.countP_le_length
  exact hcount.trans (List.length_filter_le _ _)

/-- The record after the regions of the blocks `done`. -/
structure WalkInv (done : List Block) (m : Mem) : Prop where
  len : m.pageBitmap.btmpBytesLen = pageBitmapBytesLen
  totalFree : m.totalFreePages = pageCount done
  free : m.freePages = m.totalFreePages
  total : m.totalPages = sub64 (pageCount done) (fragmentCount done)
  bits : ∀ p, m.pageBitmap.HasBit 1 p ↔
    p < pageBitmapBytesLen * 8 ∧ ∃ b ∈ freeBlocks done, p ∈ b.pages

namespace WalkInv

theorem start : WalkInv [] Mem.start where
  len := rfl
  totalFree := by simp [Mem.start, pageCount, freeBlocks]
  free := rfl
  total := by simp [Mem.start, pageCount, fragmentCount, freeBlocks, sub64]
  bits p := by simp [Mem.start, freeBlocks]

/-- One merged region keeps the counters and the bits in step with the blocks. -/
theorem step {done : List Block} {m : Mem} (hm : WalkInv done m) {b : Block}
    (hstart : b.first.physicalStart ≤ 2 ^ 52) (hextent : extent b.members ≤ 2 ^ 52)
    (hcount : pageCount (done ++ [b]) ≤ 2 ^ 52)
    (hfragment : fragmentCount (done ++ [b]) < 2 ^ 31) :
    WalkInv (done ++ [b]) (m.addRegion b.region) := by
  by_cases hb : b.IsFree
  · have hlo : pageSizeRoundUp b.region.memStart = b.lo := by
      have hsum : add64 b.first.physicalStart (pgSize - 1) =
          b.first.physicalStart + (pgSize - 1) :=
        add64_of_lt (by unfold wordSize pgSize; omega)
      show add64 b.first.physicalStart (pgSize - 1) / pgSize = _
      rw [hsum]
      rfl
    have hhi : pageSizeRoundDown b.region.memEnd = b.hi := rfl
    have hpages := pageCount_singleton hb
    have hfrag : fragmentCount [b] = if b.hi < b.lo then 1 else 0 := by
      simp [fragmentCount, freeBlocks_singleton hb, List.countP_singleton]
    have hmiss := b.lo_le_succ_hi
    have hlt : b.hi ≤ 2 ^ 53 := by
      unfold Block.hi Block.stop
      exact (Nat.div_le_self _ _).trans (by omega)
    rw [pageCount_append] at hcount
    rw [fragmentCount_append] at hfragment
    have hcurr : b.region.currType = .freeMemory := hb
    rw [Mem.addRegion, if_pos hcurr, hlo, hhi]
    refine ⟨?_, ?_, ?_, ?_, fun p => ?_⟩
    · simpa using hm.len
    · rw [pageCount_append, hpages]
      by_cases hwhole : b.hi > b.lo
      · simp only [if_pos hwhole, hm.totalFree, sub64, add64, wordSize]
        omega
      · simp only [if_neg hwhole, hm.totalFree]
        omega
    · by_cases hwhole : b.hi > b.lo
      · simp only [if_pos hwhole]
      · simp only [if_neg hwhole, hm.free]
    · rw [pageCount_append, fragmentCount_append, hpages, hfrag]
      simp only [hm.total, sub64, add64, wordSize]
      split <;> omega
    · have hrange : b.lo ≤ p ∧ p < b.lo + (b.hi - b.lo) ∧
          p < m.pageBitmap.btmpBytesLen * 8 ↔ p < pageBitmapBytesLen * 8 ∧ p ∈ b.pages := by
        rw [hm.len, Block.pages, Finset.mem_Ico]
        omega
      simp only [Bitmap.hasBit_setBits _ _ _ (Or.inr rfl), hrange, freeBlocks_append,
        freeBlocks_singleton hb, List.mem_append, List.mem_singleton]
      by_cases hin : p < pageBitmapBytesLen * 8 ∧ p ∈ b.pages
      · rw [if_pos hin]
        exact ⟨fun _ => ⟨hin.1, b, Or.inr rfl, hin.2⟩, fun _ => trivial⟩
      · rw [if_neg hin, hm.bits p]
        constructor
        · rintro ⟨hcap, c, hc, hp⟩
          exact ⟨hcap, c, Or.inl hc, hp⟩
        · rintro ⟨hcap, c, hc | rfl, hp⟩
          · exact ⟨hcap, c, hc, hp⟩
          · exact absurd ⟨hcap, hp⟩ hin
  · have hcurr : b.region.currType ≠ .freeMemory := hb
    have hnone := freeBlocks_singleton_of_not hb
    rw [Mem.addRegion, if_neg hcurr]
    refine ⟨hm.len, ?_, hm.free, ?_, fun p => ?_⟩
    · rw [hm.totalFree, pageCount_append, pageCount, pageCount, hnone]
      simp
    · rw [hm.total, pageCount_append, fragmentCount_append, pageCount, pageCount,
        fragmentCount, fragmentCount, hnone]
      simp
    · rw [hm.bits p, freeBlocks_append, hnone, List.append_nil]

theorem foldl {done : List Block} {m : Mem} (hm : WalkInv done m) (bs : List Block)
    (hstart : ∀ b ∈ bs, b.first.physicalStart ≤ 2 ^ 52)
    (hextent : ∀ b ∈ bs, extent b.members ≤ 2 ^ 52)
    (hcount : pageCount (done ++ bs) ≤ 2 ^ 52)
    (hfragment : fragmentCount (done ++ bs) < 2 ^ 31) :
    WalkInv (done ++ bs) ((bs.map Block.region).foldl Mem.addRegion m) := by
  induction bs generalizing done m with
  | nil => simpa using hm
  | cons b bs ih =>
      rw [List.forall_mem_cons] at hstart hextent
      rw [show done ++ b :: bs = (done ++ [b]) ++ bs by simp] at hcount hfragment ⊢
      have hpre : pageCount (done ++ [b]) ≤ 2 ^ 52 := by
        rw [pageCount_append] at hcount
        omega
      have hpre' : fragmentCount (done ++ [b]) < 2 ^ 31 := by
        rw [fragmentCount_append] at hfragment
        omega
      exact ih (hm.step hstart.1 hextent.1 hpre hpre') hstart.2 hextent.2 hcount hfragment

end WalkInv

/-! ## What start-up leaves behind -/

namespace UefiMap

theorem flatMap_members_blocks (map : UefiMap) :
    map.blocks.flatMap Block.members = map.descriptors := by
  unfold blocks
  cases map.descriptors with
  | nil => rfl
  | cons d ds => exact flatMap_members_blocksFrom ⟨d, []⟩ ds

theorem mem_descriptors {map : UefiMap} {b : Block} (hb : b ∈ map.blocks)
    {d : EfiMemoryDescriptor} (hd : d ∈ b.members) : d ∈ map.descriptors := by
  rw [← map.flatMap_members_blocks]
  exact List.mem_flatMap.mpr ⟨b, hb, hd⟩

theorem extent_descriptors_le (map : UefiMap) : extent map.descriptors ≤ 2 ^ 52 :=
  extent_le map.disjoint map.within

theorem physicalStart_le {map : UefiMap} {d : EfiMemoryDescriptor}
    (hd : d ∈ map.descriptors) : d.physicalStart ≤ 2 ^ 52 := by
  have := map.within d hd
  omega

theorem extent_members_le {map : UefiMap} {b : Block} (hb : b ∈ map.blocks) :
    extent b.members ≤ 2 ^ 52 := by
  obtain ⟨pre, post, hsplit⟩ := List.append_of_mem hb
  have hall := map.extent_descriptors_le
  rw [← map.flatMap_members_blocks, hsplit, List.flatMap_append, List.flatMap_cons,
    extent_append, extent_append] at hall
  omega

theorem pageCount_blocks_le (map : UefiMap) : pageCount map.blocks ≤ 2 ^ 52 := by
  have hcount := pageCount_le map.blocks
  rw [map.flatMap_members_blocks] at hcount
  exact hcount.trans map.extent_descriptors_le

theorem fragmentCount_blocks_lt (map : UefiMap) : fragmentCount map.blocks < 2 ^ 31 := by
  have hlength := length_le_flatMap_members map.blocks
  rw [map.flatMap_members_blocks] at hlength
  have := fragmentCount_le map.blocks
  have := map.count_lt
  omega

/-- The value of `total_pages`: the pages counted, less one for each fragment. -/
def pageTotal (map : UefiMap) : Nat := sub64 (pageCount map.blocks) (fragmentCount map.blocks)

end UefiMap

/-- The bit of page `p` is set in the bitmap array, searched or not. -/
def Mem.Marked (m : Mem) (p : Nat) : Prop := m.pageBitmap.whole.HasBit 1 p

theorem Mem.mem_freeFrames {m : Mem} {p : Nat} :
    p ∈ m.freeFrames ↔ p < m.pageBitmap.btmpBytesLen * 8 ∧ m.Marked p := by
  rw [freeFrames, Bitmap.mem_freeBits, Bitmap.hasBit_whole]
  rfl

/-- Start-up is the walk over the blocks of the map and the two final adjustments. -/
theorem memPageInit_walk (map : UefiMap) :
    ∃ m, WalkInv map.blocks m ∧ memPageInit map = m.fitBitmap.reserveLowPages := by
  have hwalk := WalkInv.start.foldl map.blocks
    (fun b hb => UefiMap.physicalStart_le (UefiMap.mem_descriptors hb (by simp [Block.members])))
    (fun b hb => UefiMap.extent_members_le hb)
    (by simpa using map.pageCount_blocks_le) (by simpa using map.fragmentCount_blocks_lt)
  refine ⟨_, hwalk, ?_⟩
  have hextent := map.extent_descriptors_le
  have hstart (d : EfiMemoryDescriptor) (hd : d ∈ map.descriptors) := UefiMap.physicalStart_le hd
  unfold memPageInit UefiMap.blocks
  cases hds : map.descriptors with
  | nil => rfl
  | cons d ds =>
      rw [hds] at hextent hstart
      have hsize : d.currSize = d.size :=
        EfiMemoryDescriptor.currSize_of_lt (by
          rw [extent_cons] at hextent
          unfold wordSize
          omega)
      have hfirst : Region.ofDescriptor d = (⟨d, []⟩ : Block).region := by
        have hd := map.within d (by simp [hds])
        rw [Region.ofDescriptor, hsize, add64_of_lt (by unfold wordSize; omega)]
        simp [Block.region, Block.stop, Block.members]
      simp only [hfirst]
      rw [mergeRegions_region ⟨d, []⟩ ds hstart hextent]

theorem WalkInv.whole {map : UefiMap} {m : Mem} (hm : WalkInv map.blocks m) (p : Nat) :
    m.Marked p ↔ p < pageBitmapBytesLen * 8 ∧ ∃ b ∈ freeBlocks map.blocks, p ∈ b.pages := by
  have hbits := hm.bits p
  rw [Bitmap.hasBit_whole, hm.len] at hbits
  have hlt (h : m.Marked p) : p < pageBitmapBytesLen * 8 := Bitmap.HasBit.lt h
  constructor
  · exact fun h => hbits.mp ⟨hlt h, h⟩
  · exact fun h => (hbits.mpr h).2

namespace Mem

@[simp]
theorem freePages_fitBitmap (m : Mem) : m.fitBitmap.freePages = m.freePages := by
  unfold fitBitmap
  split <;> rfl

theorem whole_fitBitmap (m : Mem) : m.fitBitmap.pageBitmap.whole = m.pageBitmap.whole := by
  unfold fitBitmap
  split <;> rfl

theorem btmpBytesLen_fitBitmap {m : Mem} (hlen : m.pageBitmap.btmpBytesLen = pageBitmapBytesLen) :
    m.fitBitmap.pageBitmap.btmpBytesLen = min (m.totalPages / 8) pageBitmapBytesLen := by
  unfold fitBitmap
  by_cases hfit : m.totalPages / 8 ≤ pageBitmapBytesLen
  · rw [dif_pos hfit, Nat.min_eq_left hfit]
  · rw [dif_neg hfit, hlen, Nat.min_eq_right (by omega)]

end Mem

theorem memPageInit_freePages (map : UefiMap) :
    (memPageInit map).freePages = pageCount map.blocks := by
  obtain ⟨m, hm, heq⟩ := memPageInit_walk map
  rw [heq, Mem.reserveLowPages, Mem.freePages_fitBitmap, hm.free, hm.totalFree]

theorem memPageInit_btmpBytesLen (map : UefiMap) :
    (memPageInit map).pageBitmap.btmpBytesLen = min (map.pageTotal / 8) pageBitmapBytesLen := by
  obtain ⟨m, hm, heq⟩ := memPageInit_walk map
  rw [heq, Mem.reserveLowPages, Bitmap.setBits_btmpBytesLen, Mem.btmpBytesLen_fitBitmap hm.len,
    hm.total]
  rfl

/-- The pages marked are those of the free blocks, less the three low ones when
the bitmap has a byte for them. -/
theorem memPageInit_marked (map : UefiMap) (p : Nat) :
    (memPageInit map).Marked p ↔
      (p < pageBitmapBytesLen * 8 ∧ ∃ b ∈ freeBlocks map.blocks, p ∈ b.pages) ∧
        ¬ (p < 3 ∧ 8 ≤ map.pageTotal) := by
  obtain ⟨m, hm, heq⟩ := memPageInit_walk map
  have hlen := Mem.btmpBytesLen_fitBitmap hm.len
  rw [hm.total, ← UefiMap.pageTotal] at hlen
  have hlow : 0 ≤ p ∧ p < 0 + 3 ∧ p < m.fitBitmap.pageBitmap.btmpBytesLen * 8 ↔
      p < 3 ∧ 8 ≤ map.pageTotal := by
    rw [hlen, pageBitmapBytesLen]
    omega
  rw [heq, Mem.Marked, Mem.reserveLowPages, Bitmap.hasBit_whole_setBits _ _ _ (Or.inl rfl),
    Mem.whole_fitBitmap, ← hm.whole p]
  simp only [hlow]
  by_cases hp : p < 3 ∧ 8 ≤ map.pageTotal
  · simp [hp]
  · simp only [hp, not_false_eq_true, and_true]
    rfl

end ClayFigure
