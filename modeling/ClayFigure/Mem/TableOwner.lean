/-
# Owners of blocks and frames

What is held of the two allocators is blocks and runs of frames. An owner exchanges its part for
another one and leaves the bytes of all other blocks alone. A new page table is a block that comes
in addition, and is cleared.
-/

import ClayFigure.Math.Parts
import ClayFigure.Mem.TableBlocks

namespace ClayFigure

open ClayFigure.Math

/-- A release takes no frame. -/
theorem Mem.freeFrames_subset {m m' : Mem} {addr n : Nat}
    (h : m.freePhysicalPage addr n = some m') : m.freeFrames ⊆ m'.freeFrames := by
  unfold freePhysicalPage at h
  split at h
  · cases h
  · split at h
    · cases h
    · obtain rfl := Option.some.inj h
      intro i hi
      rw [freeFrames, Bitmap.mem_freeBits] at hi ⊢
      rw [Bitmap.hasBit_setBits _ _ _ (Or.inr rfl)]
      split
      · rfl
      · exact hi

/-! ## Calls that leave the bytes alone -/

namespace Allocator

variable {s t a : Allocator} {g : Group} {b c numberOfBlocks size alignment boundary addr : Nat}

theorem bytes_initCache (s : Allocator) (g : Group) (c x : Nat) :
    (s.initCache g c).bytes x = if c ≤ x ∧ x < c + pgSize then 0 else s.bytes x := rfl

theorem unlinkBlocks_keeps {idxs : List Nat} :
    ∀ {s : Allocator}, idxs.foldlM (unlinkBlock c g numberOfBlocks) s = some t →
      t.bytes = s.bytes ∧ t.mem = s.mem := by
  induction idxs with
  | nil =>
      intro s h
      cases h
      exact ⟨rfl, rfl⟩
  | cons idx idxs ih =>
      intro s h
      rw [List.foldlM_cons] at h
      obtain ⟨u, hu, h⟩ := Option.bind_eq_some_iff.mp h
      obtain ⟨hbytes, hmem⟩ := ih h
      unfold unlinkBlock at hu
      simp only at hu
      split at hu
      · cases hu
      · obtain ⟨lists, -, rfl⟩ := Option.map_eq_some_iff.mp hu
        exact ⟨hbytes, hmem⟩

theorem bytes_addBlocks {idxs : List Nat} :
    ∀ {s : Allocator}, idxs.foldlM (addBlock c) s = some t → t.bytes = s.bytes := by
  induction idxs with
  | nil =>
      intro s h
      cases h
      rfl
  | cons idx idxs ih =>
      intro s h
      rw [List.foldlM_cons] at h
      obtain ⟨u, hu, h⟩ := Option.bind_eq_some_iff.mp h
      rw [ih h]
      unfold addBlock at hu
      obtain ⟨cache, -, hu⟩ := Option.bind_eq_some_iff.mp hu
      obtain ⟨lists, -, hu⟩ := Option.bind_eq_some_iff.mp hu
      cases hu
      rfl

/-- `kfree` writes links and counters only, and takes no frame. -/
theorem kfree_keeps (h : s.kfree b = some a) :
    a.bytes = s.bytes ∧ s.mem.freeFrames ⊆ a.mem.freeFrames := by
  unfold kfree at h
  split at h
  · cases h
    exact ⟨rfl, subset_rfl⟩
  · obtain ⟨cache, -, h⟩ := Option.bind_eq_some_iff.mp h
    simp only at h
    split at h
    · cases h
    · obtain ⟨u, hu, h⟩ := Option.bind_eq_some_iff.mp h
      obtain ⟨lists, -, h⟩ := Option.bind_eq_some_iff.mp h
      obtain ⟨hbytes, hmem⟩ : u.bytes = s.bytes ∧ u.mem = s.mem := by
        unfold Allocator.spinlockLock at hu
        split at hu
        · cases hu
          exact ⟨rfl, rfl⟩
        · cases hu
      rw [← hbytes, ← hmem]
      split at h
      · obtain ⟨v, hv, h⟩ := Option.bind_eq_some_iff.mp h
        cases h
        unfold releasePage at hv
        obtain ⟨w, hw, hv⟩ := Option.bind_eq_some_iff.mp hv
        obtain ⟨mem, hfree, hv⟩ := Option.bind_eq_some_iff.mp hv
        cases hv
        obtain ⟨hbytes, hmem⟩ := unlinkBlocks_keeps hw
        have hsub := Mem.freeFrames_subset hfree
        rw [hmem] at hsub
        exact ⟨hbytes, hsub⟩
      · cases h
        exact ⟨rfl, subset_rfl⟩

theorem bytes_kfree (h : s.kfree b = some a) : a.bytes = s.bytes := (kfree_keeps h).1

theorem bytes_kmallocFindBlock {found : Option Nat}
    (h : s.kmallocFindBlock g size alignment boundary = some (found, t)) : t.bytes = s.bytes := by
  have hremove {b : Nat} (h : ((s.lists.listRemove (.elem b)).map fun lists =>
      (some b, { s with lists })) = some (found, t)) : t.bytes = s.bytes := by
    obtain ⟨lists, -, heq⟩ := Option.map_eq_some_iff.mp h
    cases heq
    rfl
  unfold kmallocFindBlock at h
  obtain ⟨node, -, h⟩ := Option.bind_eq_some_iff.mp h
  obtain ⟨next, -, h⟩ := Option.bind_eq_some_iff.mp h
  split at h
  · cases h
  · dsimp only at h
    split at h
    · split at h
      · exact hremove h
      · cases h
    · obtain ⟨found', -, h⟩ := Option.bind_eq_some_iff.mp h
      cases found' with
      | none =>
          cases h
          rfl
      | some b => exact hremove h

/-- `kmalloc` writes to a new page and to the block it gives out only. -/
theorem bytes_kmalloc {status : Status} (h : s.kmalloc size alignment boundary addr =
      some (status, b, a)) (x : Nat) :
    a.bytes x = s.bytes x ∨
      (∃ p m, s.mem.allocPhysicalPage 1 = some ⟨.kSuccess, some p, m⟩ ∧
        physToVirt p ≤ x ∧ x < physToVirt p + pgSize) ∨
      status = .kSuccess ∧ ∃ g, groupOf size = some g ∧ b ≤ x ∧ x < b + blockSize g := by
  unfold kmalloc at h
  simp only at h
  split at h
  · cases h
    exact Or.inl rfl
  · obtain ⟨g, hg, h⟩ := Option.bind_eq_some_iff.mp h
    obtain ⟨u, hu, h⟩ := Option.bind_eq_some_iff.mp h
    obtain ⟨status', v, hv, h⟩ : ∃ status' v,
        (if u.lists.listEmpty g then u.refill g else some (.kSuccess, u)) = some (status', v) ∧
          (if status' ≠ .kSuccess then some (status', addr, v.spinlockUnlock g)
            else v.kmallocLocked g size (effective size alignment) boundary addr) =
              some (status, b, a) := by
      split at h
      · next hempty =>
          obtain ⟨⟨status', v⟩, hv, h⟩ := Option.bind_eq_some_iff.mp h
          exact ⟨status', v, by rw [if_pos hempty, hv], h⟩
      · next hempty => exact ⟨.kSuccess, u, if_neg hempty, h⟩
    have hlocked : u.bytes = s.bytes ∧ u.mem = s.mem := by
      unfold Allocator.spinlockLock at hu
      split at hu
      · cases hu
        exact ⟨rfl, rfl⟩
      · cases hu
    have hrefill : v.bytes x = s.bytes x ∨
        ∃ p m, s.mem.allocPhysicalPage 1 = some ⟨.kSuccess, some p, m⟩ ∧
          physToVirt p ≤ x ∧ x < physToVirt p + pgSize := by
      split at hv
      · unfold refill at hv
        rw [hlocked.2] at hv
        split at hv
        · cases hv
        · next r hr =>
            simp only at hv
            split at hv
            · next p hstatus haddr =>
                obtain ⟨w, hw, heq⟩ := Option.map_eq_some_iff.mp hv
                cases heq
                by_cases hx : physToVirt p ≤ x ∧ x < physToVirt p + pgSize
                · refine Or.inr ⟨p, r.mem, ?_, hx⟩
                  rw [hr, ← hstatus, ← haddr]
                · refine Or.inl ?_
                  rw [bytes_addBlocks hw, bytes_initCache, if_neg hx]
                  exact congrFun hlocked.1 x
            · cases hv
              exact Or.inl (congrFun hlocked.1 x)
      · cases hv
        exact Or.inl (congrFun hlocked.1 x)
    rcases hrefill with hsame | hpage
    · split at h
      · cases h
        exact Or.inl hsame
      · obtain ⟨⟨found, w⟩, hw, h⟩ := Option.bind_eq_some_iff.mp h
        have hfound := bytes_kmallocFindBlock hw
        simp only at h
        split at h
        · cases h
          exact Or.inl ((congrFun hfound x).trans hsame)
        · obtain ⟨y, hy, heq⟩ := Option.map_eq_some_iff.mp h
          cases heq
          unfold takeBlock at hy
          obtain ⟨cache, -, hy⟩ := Option.bind_eq_some_iff.mp hy
          cases hy
          by_cases hx : b ≤ x ∧ x < b + blockSize g
          · exact Or.inr (Or.inr ⟨rfl, g, hg, hx⟩)
          · refine Or.inl ?_
            rw [← hsame, ← congrFun hfound x]
            exact if_neg hx
    · exact Or.inr (Or.inl hpage)

end Allocator

namespace BlockInv

open Allocator

variable {s : BlockState} {contents : Group → List Nat} {group : Nat → Group}
  {b size alignment boundary addr : Nat} {a : Allocator}

/-- A block in use keeps its bytes when another one is given out. -/
theorem bytes_kmalloc (h : BlockInv s contents group) (hreq : Request size alignment boundary)
    {status : Status} (heq : s.alloc.kmalloc size alignment boundary addr = some (status, b, a))
    {c : Nat × Group} (hc : c ∈ s.live) {x : Nat} (hx : c.1 ≤ x ∧ x < c.1 + blockSize c.2) :
    a.bytes x = s.alloc.bytes x := by
  rcases Allocator.bytes_kmalloc heq x with hsame | ⟨p, m, halloc, hpage⟩ | ⟨rfl, g, hg, hblock⟩
  · exact hsame
  · obtain ⟨f, hf, -, idx, hidx, heq'⟩ := h.rep.exists_live (b := c.1) (g := c.2) hc
    obtain ⟨hlo, hhi⟩ := cache2block_bounds hidx (pageOf f)
    have hpos := blockSize_pos c.2
    rcases s.alloc.mem.allocPhysicalPage_one with
      ⟨-, addr', hno⟩ | ⟨-, f', m', hf', hlt, hone, -⟩
    · rw [halloc] at hno
      cases hno
    · -- a new page is no page of a block in use
      rw [halloc] at hone
      cases hone
      rw [physToVirt_frame hlt] at hpage
      have hsame : f = f' := frame_eq_of_mem (a := x) ⟨by omega, by omega⟩ hpage
      exact absurd (hsame ▸ hf') (h.used f hf)
  · obtain ⟨status, b', a', heq', -, hout⟩ := h.kmalloc hreq addr
    rw [heq] at heq'
    cases heq'
    rcases hout with ⟨hno, -⟩ | ⟨hno, -⟩ | ⟨-, g', hg', hgranted, -⟩
    · cases hno
    · cases hno
    · obtain rfl : g = g' := Option.some.inj (hg.symm.trans hg')
      rcases hgranted.apart c hc with hapart | hapart <;> omega

end BlockInv

/-! ## Blocks for tables -/

/-- The group of blocks of `PT_SIZE` bytes. -/
abbrev tableGroup : Group := ⟨6, by decide⟩

theorem groupOf_ptSize : Allocator.groupOf ptSize = some tableGroup := by decide

theorem blockSize_tableGroup : blockSize tableGroup = ptSize := by decide

theorem request_ptSize : Request ptSize 0 ptSize where
  pos := by decide
  size_le := by decide
  alignment_lt := by decide
  boundary_lt := by decide
  alignment_pow := Or.inl rfl
  boundary_pow := Or.inr ⟨12, rfl⟩

/-! ## What is held -/

/-- A block of `kmalloc`, or a run of frames. -/
inductive Resource
  | block (b : Nat) (g : Group)
  | frames (addr numberOfPages : Nat)

open Allocator in
/-- A search for a table is never in vain. -/
theorem not_unsuitable_table : ¬ Unsuitable ptSize 0 ptSize tableGroup := by
  rintro ⟨-, f, idx, hf, hidx, hunsuitable⟩
  obtain ⟨hlo, hhi⟩ := cache2block_bounds hidx (pageOf f)
  have hpage := pageOf_lt hf
  have haligned : cache2block (pageOf f) tableGroup idx % ptSize = 0 := by
    rw [cache2block, blockSize_tableGroup, pageOf, Nat.add_mod, Nat.mul_mod_left]
    unfold ptSize pgSize kernelVmaBase
    omega
  rw [suitable, decide_eq_false_iff_not] at hunsuitable
  refine hunsuitable ⟨?_, Or.inr ?_⟩
  · have heff : sub64 (effective ptSize 0) 1 = 2 ^ 12 - 1 := by decide
    rw [heff, Nat.and_two_pow_sub_one_eq_mod]
    exact haligned
  · rw [blockSize_tableGroup] at hhi
    rw [add64_of_lt (by omega),
      sub64_of_le (by unfold ptSize; omega) (by unfold ptSize at *; omega)]
    unfold ptSize at *
    omega

namespace BlockState

open Allocator

/-- What the callers of the two allocators hold. -/
def held (s : BlockState) : Set Resource := {r | match r with
  | .block b g => (b, g) ∈ s.live
  | .frames addr n => (addr, n) ∈ s.others}

/-- An owner exchanges its part, and the blocks of the others keep their bytes. -/
structure Acts (s t : BlockState) (part part' : Set Resource) : Prop
    extends Exchange s.held t.held part part' where
  bytes : ∀ b g, .block b g ∈ s.held \ part → ∀ x, b ≤ x ∧ x < b + blockSize g →
    t.alloc.bytes x = s.alloc.bytes x

variable {s t u : BlockState} {contents : Group → List Nat} {group : Nat → Group}
  {part part' part'' rest : Set Resource} {b v p : Nat} {g : Group}

theorem mem_held_block : .block b g ∈ s.held ↔ (b, g) ∈ s.live := Iff.rfl

theorem mem_held_frames {n : Nat} : .frames b n ∈ s.held ↔ (b, n) ∈ s.others := Iff.rfl

namespace Acts

theorem trans (h : s.Acts t part part') (h' : t.Acts u part' part'') : s.Acts u part part'' := by
  refine ⟨h.toExchange.trans h'.toExchange, fun b g hb x hx => ?_⟩
  refine (h'.bytes b g ⟨h.mem_of_not_mem hb.1 hb.2, ?_⟩ x hx).trans (h.bytes b g hb x hx)
  exact Set.disjoint_left.mp h.apart hb

theorem frame (h : s.Acts t part part') (hrest : rest ⊆ s.held) (hapart : Disjoint rest part) :
    s.Acts t (part ∪ rest) (part' ∪ rest) :=
  ⟨h.toExchange.frame hrest hapart, fun b g hb => h.bytes b g ⟨hb.1, fun hin => hb.2 (Or.inl hin)⟩⟩

/-- Writing to blocks of one's own. -/
theorem of_held (hheld : t.held = s.held) (hpart : part ⊆ s.held)
    (hbytes : ∀ b g, .block b g ∈ s.held \ part → ∀ x, b ≤ x ∧ x < b + blockSize g →
      t.alloc.bytes x = s.alloc.bytes x) : s.Acts t part part := by
  refine ⟨?_, hbytes⟩
  rw [hheld]
  exact .refl hpart

/-- Something more is held. -/
theorem of_insert {r : Resource} (hheld : t.held = insert r s.held) (hnew : r ∉ s.held)
    (hbytes : ∀ b g, .block b g ∈ s.held → ∀ x, b ≤ x ∧ x < b + blockSize g →
      t.alloc.bytes x = s.alloc.bytes x) : s.Acts t ∅ {r} := by
  refine ⟨⟨?_, ?_⟩, fun b g hb => hbytes b g hb.1⟩
  · rw [hheld, Set.sdiff_empty, Set.union_singleton]
  · rw [Set.sdiff_empty]
    exact Set.disjoint_singleton_left.mpr hnew

/-- Something is given back. -/
theorem of_erase {r : Resource} (hheld : t.held = s.held \ {r})
    (hbytes : ∀ b g, .block b g ∈ s.held → ∀ x, b ≤ x ∧ x < b + blockSize g →
      t.alloc.bytes x = s.alloc.bytes x) : s.Acts t {r} ∅ := by
  refine ⟨⟨?_, ?_⟩, fun b g hb => hbytes b g hb.1⟩
  · rw [hheld, Set.union_empty]
  · rw [Set.empty_sdiff]
    exact Set.empty_disjoint _

end Acts

/-- An address is that of one block in use. -/
theorem live_unique (h : BlockInv s contents group) {g' : Group} (hb : (b, g) ∈ s.live)
    (hb' : (b, g') ∈ s.live) : g = g' := by
  obtain ⟨f, hf, rfl, idx, hidx, heq⟩ := h.rep.exists_live hb
  obtain ⟨f', hf', rfl, idx', hidx', heq'⟩ := h.rep.exists_live hb'
  have hpage := block2cache_cache2block (h.rep.frame_lt hf) hidx
  rw [heq, ← heq', block2cache_cache2block (h.rep.frame_lt hf') hidx'] at hpage
  rw [pageOf_injective hpage]

/-- Blocks in use share no address. -/
theorem live_apart (h : BlockInv s contents group) {g' : Group} {b' : Nat} (hb : (b, g) ∈ s.live)
    (hb' : (b', g') ∈ s.live) (hne : ¬ (b = b' ∧ g = g')) {x : Nat}
    (hx : b ≤ x ∧ x < b + blockSize g) : ¬ (b' ≤ x ∧ x < b' + blockSize g') := by
  have hne : b ≠ b' := by
    rintro rfl
    exact hne ⟨rfl, live_unique h hb hb'⟩
  have hapart := (h.rep.exists_live hb).apart (h.rep.exists_live hb') hne
  omega

/-! ## New tables -/

/-- The physical address of a table is that of a block in use. -/
structure TableBlock (s : BlockState) (table : Nat) : Prop where
  live : (physToVirt table, tableGroup) ∈ s.live
  aligned : table % ptSize = 0
  inside : table + ptSize ≤ directMapEnd

theorem TableBlock.lt (h : s.TableBlock p) : p < directMapEnd := by
  have := h.inside
  unfold ptSize at this
  omega

/-- A block of `PT_SIZE` bytes is aligned, and in the direct map. -/
theorem kmalloc_table (h : BlockInv s contents group)
    (heq : s.kmalloc ptSize 0 ptSize 0 = some (.kSuccess, v, t)) :
    ∃ contents' group' table, BlockInv t contents' group' ∧ v = physToVirt table ∧
      virtToPhys v = table ∧ t.TableBlock table ∧ s.Acts t ∅ {.block v tableGroup} := by
  obtain ⟨⟨status, b, a⟩, halloc, heq⟩ := Option.bind_eq_some_iff.mp heq
  simp only [Option.pure_def, Option.some.injEq, Prod.mk.injEq] at heq
  obtain ⟨rfl, rfl, rfl⟩ := heq
  obtain ⟨status, b', a', halloc', -, hout⟩ := h.kmalloc request_ptSize 0
  rw [halloc, Option.some.injEq, Prod.mk.injEq, Prod.mk.injEq] at halloc'
  obtain ⟨rfl, rfl, rfl⟩ := halloc'
  rcases hout with ⟨hno, -⟩ | ⟨hno, -⟩ | ⟨-, g, hg, hgranted, contents', group', hinv⟩
  · cases hno
  · cases hno
  · rw [groupOf_ptSize, Option.some.injEq] at hg
    subst hg
    simp only [groupOf_ptSize]
    set u : BlockState := { s with
      alloc := a
      live := (b, tableGroup) :: s.live
      pages := pagesAfter s.pages s.alloc.mem a.mem }
    -- the block is one of a page of the allocator
    obtain ⟨f, hf, -, idx, hidx, hb⟩ := hinv.rep.exists_live (List.mem_cons_self : _ ∈ u.live)
    have hpage := pageOf_lt (hinv.rep.frame_lt hf)
    obtain ⟨hlo, hhi⟩ := cache2block_bounds hidx (pageOf f)
    rw [hb, blockSize_tableGroup] at hhi
    have hbase : kernelVmaBase ≤ b := by
      rw [hb, blockSize_tableGroup] at hlo
      unfold pageOf at hlo
      omega
    have hinside := hgranted.inside (by decide)
    have hvirt : virtToPhys b = b - kernelVmaBase := sub64_of_le hbase (by omega)
    have hback : physToVirt (b - kernelVmaBase) = b := by
      rw [physToVirt_of_lt, Nat.sub_add_cancel hbase]
      unfold ptSize pgSize directMapEnd wordSize kernelVmaBase at *
      omega
    refine ⟨contents', group', b - kernelVmaBase, hinv, hback.symm, hvirt, ⟨?_, ?_, ?_⟩, ?_⟩
    · rw [hback]
      exact List.mem_cons_self
    · unfold ptSize kernelVmaBase at *
      omega
    · unfold directMapEnd
      omega
    · refine .of_insert ?_ ?_ fun c g hc x hx => h.bytes_kmalloc request_ptSize halloc hc hx
      · ext r
        cases r with
        | block c g => simp [held, u]
        | frames a n => simp [held, u]
      · intro hin
        have hapart := hgranted.apart _ hin
        have hpos := blockSize_pos tableGroup
        simp only at hapart
        omega

/-- The allocator does not look at the bytes that are stored. -/
theorem inv_bytes (h : BlockInv s contents group) (bytes : Nat → Byte) :
    BlockInv { s with alloc := { s.alloc with bytes } } contents group :=
  h.congr (fun _ _ => rfl) (fun _ _ => rfl) (fun _ _ => ⟨rfl, rfl⟩) rfl rfl rfl rfl

/-- A table is cleared. -/
theorem inv_memset (h : BlockInv s contents group) (hb : (b, tableGroup) ∈ s.live) :
    BlockInv { s with alloc := s.alloc.memset b ptSize } contents group := by
  have hopen {x : Nat} (hx : ¬ s.Open x) : ¬ (b ≤ x ∧ x < b + ptSize) :=
    fun hin => hx (Or.inl ⟨_, hb, by rwa [blockSize_tableGroup]⟩)
  refine h.congr (fun x hx => if_neg (hopen hx)) (fun x hx => if_neg (hopen hx)) (fun n hn => ?_)
    rfl rfl rfl rfl
  cases n with
  | head | tail => exact ⟨rfl, rfl⟩
  | elem x => exact ⟨if_neg (hopen (hn x rfl)), if_neg (hopen (hn x rfl))⟩

/-- What is written to a table is in no other block. -/
theorem acts_table (h : BlockInv s contents group) (hb : (b, tableGroup) ∈ s.live) {a : Allocator}
    (hbytes : ∀ x, ¬ (b ≤ x ∧ x < b + ptSize) → a.bytes x = s.alloc.bytes x) :
    s.Acts { s with alloc := a } {.block b tableGroup} {.block b tableGroup} := by
  refine .of_held rfl (Set.singleton_subset_iff.mpr hb) fun c g hc x hx => hbytes x ?_
  have hne : ¬ (c = b ∧ g = tableGroup) := fun ⟨heq, hgroup⟩ =>
    hc.2 (by rw [heq, hgroup]; rfl)
  have hapart := live_apart h hc.1 hb hne hx
  rwa [blockSize_tableGroup] at hapart

/-- A block that has become a table. -/
structure NewTable (s t : BlockState) (table : Nat) : Prop where
  block : t.TableBlock table
  acts : s.Acts t ∅ {.block (physToVirt table) tableGroup}
  cleared : ∀ x, physToVirt table ≤ x ∧ x < physToVirt table + ptSize → t.alloc.bytes x = 0

/-- A cleared block of `PT_SIZE` bytes. -/
theorem newTable_spec (h : BlockInv s contents group) (heq : s.newTable = some (v, t)) :
    ∃ contents' group' table, BlockInv t contents' group' ∧ virtToPhys v = table ∧
      s.NewTable t table := by
  obtain ⟨⟨status, b, u⟩, hkmalloc, heq⟩ := Option.bind_eq_some_iff.mp heq
  simp only at heq
  split at heq
  · cases heq
  · next hstatus =>
      obtain rfl := not_not.mp hstatus
      cases heq
      obtain ⟨contents', group', table, hinv, hvirt, hphys, hblock, hacts⟩ :=
        kmalloc_table h hkmalloc
      have hlive := hvirt.symm ▸ hblock.live
      refine ⟨contents', group', table, inv_memset hinv hlive, hphys,
        ⟨hblock.live, hblock.aligned, hblock.inside⟩, ?_, fun x hx => ?_⟩
      · rw [← hvirt]
        exact hacts.trans (acts_table hinv hlive fun x hx => if_neg hx)
      · rw [← hvirt] at hx
        rw [bytes_memset, if_pos hx]

/-! ## When tables can be had -/

/-- A frame is there as long as one is free. -/
theorem card_of_noFrame (h : BlockInv s contents group) (hno : s.alloc.mem.NoFrame) :
    s.alloc.mem.freeFrames.card = 0 := by
  rcases hno with hno | hno
  · exact h.rep.frames.counted.symm.trans hno
  · rw [hno, Finset.card_empty]

/-- A block for a table is refused for want of a frame only. -/
theorem kmalloc_table_total (h : BlockInv s contents group) :
    ∃ status v t, s.kmalloc ptSize 0 ptSize 0 = some (status, v, t) ∧
      s.alloc.mem.TakesOne t.alloc.mem ∧
      (status ≠ .kSuccess → s.alloc.mem.freeFrames.card = 0) := by
  obtain ⟨status, b, a, halloc, htakes, hout⟩ := h.kmalloc request_ptSize 0
  simp only [BlockState.kmalloc, halloc, Option.bind_eq_bind, Option.bind_some]
  refine ⟨status, b, _, rfl, htakes, fun hfailed => ?_⟩
  rcases hout with ⟨-, g, hg, hvain⟩ | ⟨-, hno, -⟩ | ⟨hsuccess, -⟩
  · rw [groupOf_ptSize, Option.some.injEq] at hg
    exact absurd (hg ▸ hvain) not_unsuitable_table
  · exact card_of_noFrame h hno
  · exact absurd hsuccess hfailed

/-- `create_page_dir` returns `NULL` for want of a frame only. -/
theorem createPageDir_total (h : BlockInv s contents group) :
    ∃ r t, s.createPageDir = some (r, t) ∧ s.alloc.mem.TakesOne t.alloc.mem ∧
      (r = none → s.alloc.mem.freeFrames.card = 0) := by
  obtain ⟨status, v, u, hkmalloc, htakes, hfailed⟩ := kmalloc_table_total h
  unfold BlockState.createPageDir
  rw [hkmalloc]
  by_cases hsuccess : status = .kSuccess
  · subst hsuccess
    exact ⟨_, _, rfl, htakes, nofun⟩
  · refine ⟨none, u, ?_, htakes, fun _ => hfailed hsuccess⟩
    simp [hsuccess]

/-- With a frame left `ensureTable` fails no `ASSERT`. -/
theorem ensureTable_total (h : BlockInv s contents group) (entry : Nat)
    (hfree : 0 < s.alloc.mem.freeFrames.card) :
    ∃ t contents' group', s.ensureTable entry = some t ∧ BlockInv t contents' group' ∧
      s.alloc.mem.TakesOne t.alloc.mem := by
  unfold BlockState.ensureTable
  split
  · obtain ⟨status, v, u, hkmalloc, htakes, hfailed⟩ := kmalloc_table_total h
    obtain rfl : status = .kSuccess := by
      by_contra hne
      exact hfree.ne' (hfailed hne)
    have hnew : s.newTable = some (v, { u with alloc := u.alloc.memset v ptSize }) := by
      simp only [BlockState.newTable, hkmalloc, Option.bind_eq_bind, Option.bind_some]
      rfl
    obtain ⟨contents', group', -, hinv, -⟩ := newTable_spec h hnew
    rw [hnew]
    exact ⟨_, contents', group', rfl, inv_bytes hinv _, htakes⟩
  · exact ⟨s, contents, group, rfl, h, .refl _⟩

/-- With two frames left `page_map` fails no `ASSERT`. -/
theorem pageMap_total (h : BlockInv s contents group) (pml4t paddr vaddr : Nat)
    (hfree : 2 ≤ s.alloc.mem.freeFrames.card) : ∃ t, s.pageMap pml4t paddr vaddr = some t := by
  obtain ⟨u₁, contents₁, group₁, heq₁, hinv₁, htakes₁⟩ := ensureTable_total h
    (physToVirt pml4t + 8 * addrPml4tIndex (vaddr &&& pageMask)) (by omega)
  have hcard := htakes₁.card_le
  obtain ⟨u₂, -, -, heq₂, -⟩ := ensureTable_total hinv₁
    (physToVirt ((u₁.load (physToVirt pml4t + 8 * addrPml4tIndex (vaddr &&& pageMask)) &&&
      entryMask) + 8 * addrPdptIndex (vaddr &&& pageMask))) (by omega)
  simp only [BlockState.pageMap, heq₁, heq₂, Option.bind_eq_bind, Option.bind_some]
  exact ⟨_, rfl⟩

end BlockState

end ClayFigure
