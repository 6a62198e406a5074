/-
# Histories of `kmalloc` and `kfree`

Between two calls each page of the allocator is its header and its blocks, each of them in the
list of its group or in use. The runs here are those of `kmalloc` and `kfree`, of the users'
stores into their own memory and of the other users of the frame allocator.
-/

import ClayFigure.Mem.Kmalloc
import Mathlib.Algebra.BigOperators.Group.Finset.Piecewise
import Mathlib.Algebra.Group.Action.Defs
import Mathlib.Algebra.Order.BigOperators.Group.Finset

namespace ClayFigure

open ClayFigure.Math

/-! ## Runs -/

/-- All that lies at an address. -/
structure Cell where
  cache : Option MemCache
  magic : Nat
  byte : Byte
  prev : Option (Node Group Nat)
  next : Option (Node Group Nat)

/-- A store to an address. -/
def Allocator.store (s : Allocator) (a : Nat) (cell : Cell) : Allocator :=
  { s with
    caches := Function.update s.caches a cell.cache
    magic := Function.update s.magic a cell.magic
    bytes := Function.update s.bytes a cell.byte
    lists := ⟨Function.update s.lists.prev (.elem a) cell.prev,
      Function.update s.lists.next (.elem a) cell.next⟩ }

/-- The allocator with the blocks in use, each with the group it is of, the frames it has been
given and has not given back, and what the other users of the frame allocator hold. The last three
are not read. -/
structure BlockState where
  alloc : Allocator
  live : List (Nat × Group)
  pages : Finset Nat
  others : List (Nat × Nat)

/-- A call of `kmalloc` or `kfree`, a store of a user, or a call of another user of the frame
allocator. -/
inductive BlockCall
  | kmalloc (size alignment boundary addr : Nat)
  | kfree (addr : Nat)
  | store (a : Nat) (cell : Cell)
  | frames (c : FrameCall)

/-- The frames held after a call, by what has changed in the frame allocator. -/
def pagesAfter (pages : Finset Nat) (m m' : Mem) : Finset Nat :=
  (pages \ m'.freeFrames) ∪ (m.freeFrames \ m'.freeFrames)

/-- One call; `none` is a failed `ASSERT` or waiting for ever. -/
def blockStep (s : BlockState) : BlockCall → Option BlockState
  | .kmalloc size alignment boundary addr => do
      let (status, b, alloc) ← s.alloc.kmalloc size alignment boundary addr
      return { s with
        alloc
        live := match status, Allocator.groupOf size with
          | .kSuccess, some g => (b, g) :: s.live
          | _, _ => s.live
        pages := pagesAfter s.pages s.alloc.mem alloc.mem }
  | .kfree addr => do
      let alloc ← s.alloc.kfree addr
      return { s with
        alloc
        live := s.live.filter fun b => b.1 ≠ addr
        pages := pagesAfter s.pages s.alloc.mem alloc.mem }
  | .store a cell => some { s with alloc := s.alloc.store a cell }
  | .frames c => do
      let frames ← frameStep ⟨s.alloc.mem, s.others⟩ c
      return { s with alloc := { s.alloc with mem := frames.mem }, others := frames.live }

/-- What `kmalloc` may be asked for. -/
structure Request (size alignment boundary : Nat) : Prop where
  pos : 1 ≤ size
  size_le : size ≤ maxAllocateMemorySize
  alignment_lt : alignment < wordSize
  boundary_lt : boundary < wordSize
  alignment_pow : alignment = 0 ∨ alignment.isPowerOfTwo
  boundary_pow : boundary = 0 ∨ boundary.isPowerOfTwo

/-- The address is in a block in use, or in no page of the allocator. -/
def BlockState.Open (s : BlockState) (a : Nat) : Prop :=
  (∃ b ∈ s.live, b.1 ≤ a ∧ a < b.1 + blockSize b.2) ∨
    ∀ f ∈ s.pages, ¬ (Allocator.pageOf f ≤ a ∧ a < Allocator.pageOf f + pgSize)

/-- Requests are as they may be and none ends in `K_NOT_FOUND`, only blocks in use are freed, and
users store to their own memory. -/
def BlockAllowed (s : BlockState) : BlockCall → Prop
  | .kmalloc size alignment boundary addr =>
      Request size alignment boundary ∧
        ∀ b alloc, s.alloc.kmalloc size alignment boundary addr ≠ some (.kNotFound, b, alloc)
  | .kfree addr => ∃ g, (addr, g) ∈ s.live
  | .store a _ => s.Open a
  | .frames _ => True

/-- `mem_allocator_init` has run, in memory with anything in it, and frame 0 is reserved. -/
structure BlockInit (s : BlockState) : Prop where
  alloc : ∃ a : Allocator, a.lists = ⟨fun _ => none, fun _ => none⟩ ∧
    s.alloc = a.memAllocatorInit
  preempt : s.alloc.preemptCount < wordSize
  frames : FrameInv ⟨s.alloc.mem, s.others⟩
  live : s.live = []
  pages : s.pages = ∅

/-- Histories of the allocator. -/
def blockSystem : System BlockState BlockCall where
  init := BlockInit
  step s c t := blockStep s c = some t

namespace Allocator

/-! ## The blocks of a page -/

/-- The blocks of a list that lie in a page. -/
def inPage (f : Nat) (xs : List Nat) : List Nat := xs.filter fun b => block2cache b = pageOf f

variable {f f' b idx : Nat} {g : Group} {xs ys : List Nat}

theorem pageOf_injective (heq : pageOf f = pageOf f') : f = f' := by
  unfold pageOf pgSize at heq
  omega

theorem mem_inPage : b ∈ inPage f xs ↔ b ∈ xs ∧ block2cache b = pageOf f := by
  simp [inPage]

theorem inPage_append : inPage f (xs ++ ys) = inPage f xs ++ inPage f ys := List.filter_append ..

theorem inPage_cons (heq : block2cache b = pageOf f) : inPage f (b :: xs) = b :: inPage f xs := by
  simp [inPage, heq]

theorem inPage_cons_of_ne (hne : block2cache b ≠ pageOf f) : inPage f (b :: xs) = inPage f xs := by
  simp [inPage, hne]

theorem mem_pageBlocks :
    b ∈ pageBlocks f g ↔ ∃ idx < numBlocks g, cache2block (pageOf f) g idx = b := by
  simp [pageBlocks]

theorem nodup_pageBlocks (f : Nat) (g : Group) : (pageBlocks f g).Nodup :=
  (List.nodup_range).map fun _ _ heq => cache2block_injective heq

@[simp]
theorem length_pageBlocks (f : Nat) (g : Group) : (pageBlocks f g).length = numBlocks g := by
  simp [pageBlocks]

/-- The blocks of a page lie in this page only. -/
theorem inPage_pageBlocks (hf : f < 16384) :
    inPage f' (pageBlocks f g) = if f' = f then pageBlocks f g else [] := by
  have hall (b : Nat) (hb : b ∈ pageBlocks f g) : block2cache b = pageOf f := by
    obtain ⟨idx, hidx, rfl⟩ := mem_pageBlocks.mp hb
    exact block2cache_cache2block hf hidx
  split
  · next heq =>
      subst heq
      exact List.filter_eq_self.mpr fun b hb => by simpa using hall b hb
  · next hne =>
      refine List.filter_eq_nil_iff.mpr fun b hb heq => hne ?_
      rw [decide_eq_true_eq, hall b hb] at heq
      exact (pageOf_injective heq).symm

/-- A list whose members lie in pages is as long as its parts in them. -/
theorem sum_inPage {pages : Finset Nat} (hin : ∀ b ∈ xs, ∃ f ∈ pages, block2cache b = pageOf f) :
    ∑ f ∈ pages, (inPage f xs).length = xs.length := by
  induction xs with
  | nil => simp [inPage]
  | cons b xs ih =>
      obtain ⟨f, hf, heq⟩ := hin b List.mem_cons_self
      have hcons (f' : Nat) : (inPage f' (b :: xs)).length =
          (inPage f' xs).length + if f' = f then 1 else 0 := by
        split
        · next h => rw [h, inPage_cons heq, List.length_cons]
        · next h =>
            rw [inPage_cons_of_ne fun heq' => h (pageOf_injective (heq'.symm.trans heq)),
              Nat.add_zero]
      rw [Finset.sum_congr rfl fun f' _ => hcons f', Finset.sum_add_distrib,
        ih fun b hb => hin b (List.mem_cons_of_mem _ hb), Finset.sum_ite_eq' pages f, if_pos hf,
        List.length_cons]

/-- A block of group `g` of one of the pages, a page `f` being one of `group f`. -/
def PageBlock (pages : Finset Nat) (group : Nat → Group) (b : Nat) (g : Group) : Prop :=
  ∃ f ∈ pages, group f = g ∧ ∃ idx < numBlocks g, cache2block (pageOf f) g idx = b

/-- Two blocks share no address. -/
theorem PageBlock.apart {pages : Finset Nat} {group : Nat → Group} {b' : Nat} {g' : Group}
    (h : PageBlock pages group b g) (h' : PageBlock pages group b' g') (hne : b ≠ b') :
    b + blockSize g ≤ b' ∨ b' + blockSize g' ≤ b := by
  obtain ⟨f, -, rfl, idx, hidx, rfl⟩ := h
  obtain ⟨f', -, rfl, idx', hidx', rfl⟩ := h'
  by_cases hf : f = f'
  · subst hf
    unfold cache2block at hne ⊢
    have hidx_ne : idx ≠ idx' := fun heq => hne (by rw [heq])
    rcases Nat.lt_or_gt_of_ne hidx_ne with hlt | hlt
    · have hmul := Nat.mul_le_mul_right (blockSize (group f)) (Nat.succ_le_of_lt hlt)
      rw [Nat.succ_mul] at hmul
      omega
    · have hmul := Nat.mul_le_mul_right (blockSize (group f)) (Nat.succ_le_of_lt hlt)
      rw [Nat.succ_mul] at hmul
      omega
  · obtain ⟨hlo, hhi⟩ := cache2block_bounds hidx (pageOf f)
    obtain ⟨hlo', hhi'⟩ := cache2block_bounds hidx' (pageOf f')
    unfold pageOf pgSize at *
    omega

end Allocator

/-! ## Frames of the allocator and of others -/

namespace FrameInv

variable {m m' : Mem} {f f' : Nat} {live : List (Nat × Nat)}

theorem perm (h : FrameInv ⟨m, live⟩) {live' : List (Nat × Nat)} (hperm : live.Perm live') :
    FrameInv ⟨m, live'⟩ where
  counted := h.counted
  reserved := h.reserved
  aligned a ha := h.aligned a (hperm.mem_iff.mpr ha)
  nonempty a ha := h.nonempty a (hperm.mem_iff.mpr ha)
  inside a ha := h.inside a (hperm.mem_iff.mpr ha)
  used a ha := h.used a (hperm.mem_iff.mpr ha)
  disjoint := (hperm.pairwise_iff
    (R := fun a b => Disjoint (allocFrames a) (allocFrames b)) fun h => h.symm).mp h.disjoint

/-- A frame that is held besides what is live. -/
theorem cons_iff : FrameInv ⟨m, (f * pgSize, 1) :: live⟩ ↔ FrameInv ⟨m, live⟩ ∧ 0 < f ∧
    f + 1 ≤ m.pageBitmap.btmpBytesLen * 8 ∧ f ∉ m.freeFrames ∧
    ∀ a ∈ live, f ∉ allocFrames a := by
  have hframes : allocFrames (f * pgSize, 1) = {f} := by
    rw [allocFrames_mk, Nat.Ico_succ_singleton]
  have hdiv : f * pgSize / pgSize = f := Nat.mul_div_cancel _ (by decide)
  constructor
  · intro h
    have hinside := h.inside _ List.mem_cons_self
    have hused := h.used _ List.mem_cons_self
    have hdisjoint := List.pairwise_cons.mp h.disjoint
    rw [hdiv] at hinside
    rw [hframes, Finset.disjoint_singleton_left] at hused
    refine ⟨⟨h.counted, h.reserved, fun a ha => h.aligned a (List.mem_cons_of_mem _ ha),
      fun a ha => h.nonempty a (List.mem_cons_of_mem _ ha),
      fun a ha => h.inside a (List.mem_cons_of_mem _ ha),
      fun a ha => h.used a (List.mem_cons_of_mem _ ha), hdisjoint.2⟩, hinside.1, hinside.2, hused,
      fun a ha => ?_⟩
    have hapart := hdisjoint.1 a ha
    rwa [hframes, Finset.disjoint_singleton_left] at hapart
  · rintro ⟨h, hpos, hlen, hused, hapart⟩
    refine ⟨h.counted, h.reserved, List.forall_mem_cons.mpr ⟨?_, h.aligned⟩,
      List.forall_mem_cons.mpr ⟨Nat.one_pos, h.nonempty⟩,
      List.forall_mem_cons.mpr ⟨?_, h.inside⟩, List.forall_mem_cons.mpr ⟨?_, h.used⟩,
      List.pairwise_cons.mpr ⟨fun a ha => ?_, h.disjoint⟩⟩
    · simp only [hdiv]
    · simp only [hdiv]
      exact ⟨hpos, hlen⟩
    · rw [hframes, Finset.disjoint_singleton_left]
      exact hused
    · rw [hframes, Finset.disjoint_singleton_left]
      exact hapart a ha

/-- Two frames that are held besides what is live. -/
theorem cons_cons (h : FrameInv ⟨m, (f * pgSize, 1) :: live⟩)
    (h' : FrameInv ⟨m, (f' * pgSize, 1) :: live⟩) (hne : f ≠ f') :
    FrameInv ⟨m, (f * pgSize, 1) :: (f' * pgSize, 1) :: live⟩ := by
  obtain ⟨-, hpos, hlen, hused, hapart⟩ := cons_iff.mp h
  refine cons_iff.mpr ⟨h', hpos, hlen, hused, List.forall_mem_cons.mpr ⟨?_, hapart⟩⟩
  rw [allocFrames_mk, Nat.Ico_succ_singleton, Finset.mem_singleton]
  exact hne

/-- A request for one frame that is granted. -/
theorem allocOne (h : FrameInv ⟨m, live⟩)
    (halloc : m.allocPhysicalPage 1 = some ⟨.kSuccess, some (f * pgSize), m'⟩) :
    FrameInv ⟨m', (f * pgSize, 1) :: live⟩ :=
  h.alloc (n := 1) (by simp only [frameStep, halloc])

/-- The release of one frame. -/
theorem freeOne (h : FrameInv ⟨m, (f * pgSize, 1) :: live⟩) :
    ∃ m', m.freePhysicalPage (f * pgSize) 1 = some m' ∧
      m'.freeFrames = insert f m.freeFrames ∧ FrameInv ⟨m', live⟩ := by
  obtain ⟨m', heq, -, hfree, -⟩ := h.freePhysicalPage_live List.mem_cons_self
  refine ⟨m', heq, ?_, ?_⟩
  · rw [hfree, allocFrames_mk, Nat.Ico_succ_singleton, Finset.union_comm,
      ← Finset.insert_eq]
  · refine h.free (show frameStep _ (.free (f * pgSize) 1) = some _ from ?_)
    simp only [frameStep, List.mem_cons_self, if_true, heq, List.erase_cons_head]

/-- A call of another user while a frame is held. -/
theorem otherStep (h : FrameInv ⟨m, (f * pgSize, 1) :: live⟩) {c : FrameCall} {t : FrameState}
    (hstep : frameStep ⟨m, live⟩ c = some t) :
    FrameInv ⟨t.mem, (f * pgSize, 1) :: t.live⟩ := by
  cases c with
  | alloc n =>
      have hwhole : frameStep ⟨m, (f * pgSize, 1) :: live⟩ (.alloc n) =
          some ⟨t.mem, (f * pgSize, 1) :: t.live⟩ ∨
          ∃ a, t.live = a :: live ∧ frameStep ⟨m, (f * pgSize, 1) :: live⟩ (.alloc n) =
            some ⟨t.mem, a :: (f * pgSize, 1) :: live⟩ := by
        unfold frameStep at hstep ⊢
        simp only at hstep ⊢
        split at hstep
        · cases hstep
        · next r halloc =>
            split at hstep
            · next addr _ haddr =>
                cases hstep
                exact Or.inr ⟨_, rfl, by simp only [*]⟩
            · next hfail =>
                cases hstep
                exact Or.inl rfl
      rcases hwhole with heq | ⟨a, hlive, heq⟩
      · exact h.alloc heq
      · rw [hlive]
        exact (h.alloc heq).perm (.swap ..)
  | free addr n =>
      obtain ⟨hmem, -, -⟩ := frameStep_free hstep
      have hne : (f * pgSize, 1) ≠ (addr, n) := by
        rintro ⟨⟩
        obtain ⟨-, -, -, -, hapart⟩ := cons_iff.mp h
        refine hapart _ hmem ?_
        rw [allocFrames_mk, Nat.Ico_succ_singleton]
        exact Finset.mem_singleton_self f
      refine h.free (show frameStep _ (.free addr n) = some _ from ?_)
      unfold frameStep at hstep ⊢
      simp only [hmem, List.mem_cons_of_mem _ hmem, if_true] at hstep ⊢
      split at hstep
      · cases hstep
      · next m' hfree =>
          cases hstep
          rw [List.erase_cons_tail (by simpa using hne)]

end FrameInv

/-! ## What the memory holds between two calls -/

open Allocator in
/-- The lists hold `contents`, and a page `f` is one of `group f`: its header counts the blocks of
it that are free, and all others are in use. -/
structure BlockRep (s : BlockState) (contents : Group → List Nat) (group : Nat → Group) :
    Prop where
  holds : s.alloc.lists.Holds (fun _ => True) contents
  frames : FrameInv ⟨s.alloc.mem, s.others⟩
  page : ∀ f ∈ s.pages, FrameInv ⟨s.alloc.mem, (f * pgSize, 1) :: s.others⟩
  header : ∀ f ∈ s.pages, s.alloc.caches (pageOf f) =
    some ⟨group f, numBlocks (group f), (inPage f (contents (group f))).length⟩
  total : ∀ g, s.alloc.totalFree g = (contents g).length
  free : ∀ g, ∀ b ∈ contents g, ∃ f ∈ s.pages, group f = g ∧ block2cache b = pageOf f
  live : ∀ b ∈ s.live, ∃ f ∈ s.pages, group f = b.2 ∧ block2cache b.1 = pageOf f
  blocks : ∀ f ∈ s.pages,
    (inPage f (contents (group f)) ++ inPage f (s.live.map (·.1))).Perm (pageBlocks f (group f))
  magic : ∀ f ∈ s.pages, ∀ idx < numBlocks (group f),
    cache2block (pageOf f) (group f) idx ∈ contents (group f) →
      s.alloc.magic (cache2block (pageOf f) (group f) idx) = idx + numBlocks (group f)

namespace BlockRep

open Allocator

variable {s : BlockState} {contents : Group → List Nat} {group : Nat → Group} {g : Group}
  {f b : Nat}

theorem notFree (h : BlockRep s contents group) (hf : f ∈ s.pages) :
    f ∉ s.alloc.mem.freeFrames :=
  (FrameInv.cons_iff.mp (h.page f hf)).2.2.2.1

theorem frame_lt (h : BlockRep s contents group) (hf : f ∈ s.pages) : f < 16384 := by
  obtain ⟨-, -, hlen, -⟩ := FrameInv.cons_iff.mp (h.page f hf)
  have hcap := s.alloc.mem.btmpBytesLen_le
  omega

/-- A free block is one of the blocks of a page of its group. -/
theorem exists_free (h : BlockRep s contents group) (hb : b ∈ contents g) :
    PageBlock s.pages group b g := by
  obtain ⟨f, hf, rfl, hpage⟩ := h.free g b hb
  refine ⟨f, hf, rfl, mem_pageBlocks.mp ((h.blocks f hf).subset ?_)⟩
  exact List.mem_append_left _ (mem_inPage.mpr ⟨hb, hpage⟩)

/-- A block in use is one of the blocks of a page of its group. -/
theorem exists_live (h : BlockRep s contents group) (hb : (b, g) ∈ s.live) :
    PageBlock s.pages group b g := by
  obtain ⟨f, hf, rfl, hpage⟩ := h.live _ hb
  refine ⟨f, hf, rfl, mem_pageBlocks.mp ((h.blocks f hf).subset ?_)⟩
  exact List.mem_append_right _ (mem_inPage.mpr ⟨List.mem_map_of_mem hb, hpage⟩)

/-- A free block is not in use. -/
theorem not_live_of_free (h : BlockRep s contents group) (hb : b ∈ contents g) :
    b ∉ s.live.map (·.1) := by
  obtain ⟨f, hf, rfl, hpage⟩ := h.free g b hb
  have hnodup := (h.blocks f hf).nodup_iff.mpr (nodup_pageBlocks ..)
  exact fun hlive => (List.nodup_append.mp hnodup).2.2 b (mem_inPage.mpr ⟨hb, hpage⟩) b
    (mem_inPage.mpr ⟨hlive, hpage⟩) rfl

theorem stocked (h : BlockRep s contents group) : s.alloc.Stocked contents where
  holds := h.holds
  block g b hb := by
    obtain ⟨f, hf, rfl, idx, hidx, rfl⟩ := h.exists_free hb
    exact ⟨f, idx, rfl, h.frame_lt hf, h.notFree hf, hidx, ⟨_, h.header f hf⟩,
      h.magic f hf idx hidx hb⟩

/-- The pages of other groups have no part in the list of a group. -/
theorem inPage_of_ne (h : BlockRep s contents group) (hne : group f ≠ g) :
    inPage f (contents g) = [] := by
  refine List.filter_eq_nil_iff.mpr fun b hb heq => hne ?_
  obtain ⟨f', -, rfl, hpage⟩ := h.free g b hb
  rw [decide_eq_true_eq, hpage] at heq
  rw [pageOf_injective heq]

theorem length_inPage_le (h : BlockRep s contents group) (hf : f ∈ s.pages) (g : Group) :
    (inPage f (contents g)).length ≤ 32767 := by
  by_cases heq : group f = g
  · subst heq
    have hlen := (h.blocks f hf).length_eq
    have hn := numBlocks_pos (group f)
    rw [List.length_append, length_pageBlocks] at hlen
    omega
  · rw [h.inPage_of_ne heq]
    exact Nat.zero_le _

/-- The list of a group is as long as the sum of its parts in the pages of the group. -/
theorem sum_inPage (h : BlockRep s contents group) (g : Group) :
    ∑ f ∈ s.pages, (inPage f (contents g)).length = (contents g).length :=
  Allocator.sum_inPage fun b hb => by
    obtain ⟨f, hf, -, hpage⟩ := h.free g b hb
    exact ⟨f, hf, hpage⟩

/-- A 32-bit counter can count the free blocks. -/
theorem length_lt (h : BlockRep s contents group) (g : Group) :
    (contents g).length < 2 ^ 32 - 1 := by
  have hsub : s.pages ⊆ Finset.range 16384 := fun f hf => Finset.mem_range.mpr (h.frame_lt hf)
  have hcard := Finset.card_le_card hsub
  have hsum := Finset.sum_le_card_nsmul s.pages (fun f => (inPage f (contents g)).length) 32767
    fun f hf => h.length_inPage_le hf g
  rw [h.sum_inPage, smul_eq_mul] at hsum
  rw [Finset.card_range] at hcard
  have := Nat.mul_le_mul_right 32767 hcard
  omega

end BlockRep

end ClayFigure
