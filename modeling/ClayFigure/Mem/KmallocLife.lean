/-
# What `kmalloc` and `kfree` promise

Over every history of calls the blocks given out are cleared, aligned as asked for and apart from
each other and from the headers of the pages; the counters count the free blocks; and a page goes
back to the frame allocator with its last block in use.
-/

import ClayFigure.Mem.KmallocSteps

namespace ClayFigure

open ClayFigure.Math

/-- `sizeof(mem_cache_t)`. -/
abbrev sizeofMemCache : Nat := 24

open Allocator in
/-- What a `kmalloc` that succeeds with block `b` of group `g` promises of it. -/
structure Granted (s : BlockState) (a : Allocator) (size alignment boundary b : Nat) (g : Group) :
    Prop where
  size_le : size ≤ blockSize g
  cleared : a.Cleared b (blockSize g)
  aligned : alignment ≠ 0 → alignment ∣ b
  inside : boundary ≠ 0 → b / boundary = (b + size - 1) / boundary
  apart : ∀ c ∈ s.live, b + blockSize g ≤ c.1 ∨ c.1 + blockSize c.2 ≤ b
  headers : ∀ f ∈ pagesAfter s.pages s.alloc.mem a.mem,
    b + blockSize g ≤ pageOf f ∨ pageOf f + sizeofMemCache ≤ b

open Allocator in
/-- The invariant between two calls. -/
structure BlockInv (s : BlockState) (contents : Group → List Nat) (group : Nat → Group) :
    Prop where
  rep : BlockRep s contents group
  lock : ∀ g, s.alloc.lock g = 1
  preempt : s.alloc.preemptCount < wordSize
  inUse : ∀ f ∈ s.pages, ∃ b ∈ s.live, block2cache b.1 = pageOf f

/-! ## The frames held after a call -/

section Pages

variable {pages : Finset Nat} {m m' : Mem} {f : Nat}

theorem pagesAfter_same (hused : ∀ f ∈ pages, f ∉ m.freeFrames) : pagesAfter pages m m = pages := by
  rw [pagesAfter, Finset.sdiff_self, Finset.union_empty]
  exact Finset.sdiff_eq_self_iff_disjoint.mpr
    (Finset.disjoint_left.mpr hused)

theorem pagesAfter_taken (hused : ∀ f ∈ pages, f ∉ m.freeFrames) (hf : f ∈ m.freeFrames)
    (hfree : m'.freeFrames = m.freeFrames \ {f}) : pagesAfter pages m m' = insert f pages := by
  ext x
  rw [pagesAfter, hfree]
  simp only [Finset.mem_union, Finset.mem_sdiff, Finset.mem_singleton, Finset.mem_insert,
    not_and, not_not]
  constructor
  · rintro (⟨hx, -⟩ | ⟨hx, himp⟩)
    · exact Or.inr hx
    · exact Or.inl (himp hx)
  · rintro (rfl | hx)
    · exact Or.inr ⟨hf, fun _ => rfl⟩
    · exact Or.inl ⟨hx, fun h => absurd h (hused x hx)⟩

theorem pagesAfter_given (hused : ∀ f ∈ pages, f ∉ m.freeFrames)
    (hfree : m'.freeFrames = insert f m.freeFrames) : pagesAfter pages m m' = pages.erase f := by
  ext x
  rw [pagesAfter, hfree]
  simp only [Finset.mem_union, Finset.mem_sdiff, Finset.mem_insert, Finset.mem_erase, not_or]
  constructor
  · rintro (⟨hx, hne, -⟩ | ⟨hx, -, hnot⟩)
    · exact ⟨hne, hx⟩
    · exact absurd hx hnot
  · rintro ⟨hne, hx⟩
    exact Or.inl ⟨hx, hne, hused x hx⟩

end Pages

/-! ## Alignment -/

namespace Allocator

variable {g : Group} {f idx b size alignment boundary : Nat}

theorem blockSize_eq (g : Group) : blockSize g = 2 ^ (6 + g : Nat) := by
  revert g
  decide

/-- A power of two that is not larger than a block divides the address of each. -/
theorem dvd_block (hpow : alignment.isPowerOfTwo) (hle : alignment ≤ blockSize g) :
    alignment ∣ cache2block (pageOf f) g idx := by
  obtain ⟨k, rfl⟩ := hpow
  have hblock : 2 ^ k ∣ blockSize g := by
    rw [blockSize_eq] at hle ⊢
    exact Nat.pow_dvd_pow 2 ((Nat.pow_le_pow_iff_right (by decide)).mp hle)
  have hpage : blockSize g ∣ pgSize := ⟨numBlocks g + 1, by
    have := numBlocks_mul g
    rw [Nat.mul_succ, Nat.mul_comm]
    exact this.symm⟩
  have hbase : blockSize g ∣ kernelVmaBase := hpage.trans (by decide)
  have hframe : blockSize g ∣ pageOf f := (Nat.dvd_add_right hbase).mpr (hpage.mul_left f)
  refine hblock.trans ?_
  unfold cache2block
  exact (Nat.dvd_add_right ((Nat.dvd_add_right hframe).mpr dvd_rfl)).mpr (Nat.dvd_mul_left _ _)

/-- The block that the search chooses is aligned and inside of a boundary as was asked for. -/
theorem choice_spec (hreq : Request size alignment boundary) {xs : List Nat}
    (hchoice : Stocked.choice xs size (effective size alignment) boundary =
      some (cache2block (pageOf f) g idx))
    (hf : f < 16384) (hidx : idx < numBlocks g) (hsize : size ≤ blockSize g) :
    (alignment ≠ 0 → alignment ∣ cache2block (pageOf f) g idx) ∧
      (boundary ≠ 0 → cache2block (pageOf f) g idx / boundary =
        (cache2block (pageOf f) g idx + size - 1) / boundary) := by
  have hfound : ¬ (effective size alignment ≤ size ∧ boundary = 0) →
      suitable size (effective size alignment) boundary (cache2block (pageOf f) g idx) = true := by
    intro hsearch
    unfold Stocked.choice at hchoice
    rw [if_neg hsearch] at hchoice
    exact List.find?_some hchoice
  constructor
  · intro hne
    have hpow := hreq.alignment_pow.resolve_left hne
    by_cases hle : alignment ≤ size
    · exact dvd_block hpow (hle.trans hsize)
    · have heff : effective size alignment = alignment := if_neg (by omega)
      rw [heff] at hfound
      have hsuit := hfound fun h => hle h.1
      rw [suitable, decide_eq_true_eq] at hsuit
      obtain ⟨k, rfl⟩ := hpow
      have hpos : 1 ≤ 2 ^ k := Nat.one_le_two_pow
      have hmask := hsuit.1
      rw [sub64_of_le hpos hreq.alignment_lt, Nat.and_two_pow_sub_one_eq_mod] at hmask
      exact Nat.dvd_of_mod_eq_zero hmask
  · intro hne
    have hsuit := hfound fun h => hne h.2
    rw [suitable, decide_eq_true_eq] at hsuit
    obtain ⟨hlo, hhi⟩ := cache2block_bounds hidx (pageOf f)
    have hlt := pageOf_lt hf
    have hpos := hreq.pos
    have hsame := hsuit.2.resolve_left hne
    rwa [add64_of_lt (by omega), sub64_of_le (by omega) (by omega)] at hsame

end Allocator

/-- At most one frame is taken. -/
structure Mem.TakesOne (m m' : Mem) : Prop where
  subset : m'.freeFrames ⊆ m.freeFrames
  card_le : m.freeFrames.card ≤ m'.freeFrames.card + 1

theorem Mem.TakesOne.refl (m : Mem) : m.TakesOne m := ⟨Finset.Subset.refl _, Nat.le_succ _⟩

/-- There is a block of the group that a request cannot be given: what a search that is in vain
has found. -/
def Unsuitable (size alignment boundary : Nat) (g : Group) : Prop :=
  ¬ (alignment ≤ size ∧ boundary = 0) ∧ ∃ f idx, f < 16384 ∧ idx < Allocator.numBlocks g ∧
    Allocator.suitable size (Allocator.effective size alignment) boundary
      (Allocator.cache2block (Allocator.pageOf f) g idx) = false

/-! ## `kmalloc` -/

namespace BlockRep

open Allocator

variable {s : BlockState} {contents : Group → List Nat} {group : Nat → Group} {g : Group}
  {f b size alignment boundary : Nat}

/-- The representation does not depend on the locks. -/
theorem locked (h : BlockRep s contents group) (lock : Group → Nat) (preemptCount : Nat) :
    BlockRep { s with alloc := { s.alloc with lock, preemptCount } } contents group :=
  ⟨h.holds, h.frames, h.page, h.header, h.total, h.free, h.live, h.blocks, h.magic⟩

/-- The part of `kmalloc` under the lock, when the list is not empty: a search finds nothing, or a
block that is promised goes into use. -/
theorem kmallocLocked (h : BlockRep s contents group) (hreq : Request size alignment boundary)
    (hg : groupOf size = some g) (hne : contents g ≠ []) (addr : Nat) :
    (s.alloc.kmallocLocked g size (effective size alignment) boundary addr =
        some (.kNotFound, addr, s.alloc) ∧ Unsuitable size alignment boundary g) ∨
      ∃ b a contents', s.alloc.kmallocLocked g size (effective size alignment) boundary addr =
          some (.kSuccess, b, a.spinlockUnlock g) ∧ b ∈ contents g ∧
        a.lock = s.alloc.lock ∧ a.preemptCount = s.alloc.preemptCount ∧ a.mem = s.alloc.mem ∧
        (∀ a', a'.mem = a.mem → (∀ start size, a.Cleared start size → a'.Cleared start size) →
          Granted s a' size alignment boundary b g) ∧
        BlockRep { s with alloc := a, live := (b, g) :: s.live } contents' group := by
  have hfind := h.stocked.kmallocFindBlock hne size (effective size alignment) boundary
  obtain ⟨g', hg', hsize⟩ := groupOf_eq_some hreq.size_le
  obtain rfl : g = g' := Option.some.inj (hg.symm.trans hg')
  cases hchoice : Stocked.choice (contents g) size (effective size alignment) boundary with
  | none =>
      rw [hchoice] at hfind
      have hvain := not_not.mp (mt (Ready.choice_ne_none hne _ _ _).mpr (not_not.mpr hchoice))
      obtain ⟨b, hb⟩ := List.exists_mem_of_ne_nil _ hne
      obtain ⟨f, hf, -, idx, hidx, rfl⟩ := h.exists_free hb
      refine Or.inl ⟨kmallocLocked_none hfind, fun hshort => hvain.1 ?_, f, idx, h.frame_lt hf,
        hidx, hvain.2 _ hb⟩
      exact ⟨by unfold effective; split <;> omega, hshort.2⟩
  | some b =>
      rw [hchoice] at hfind
      obtain ⟨lists, pre, post, hsplit, hfind, hlists⟩ := hfind
      obtain ⟨a, htake, hlock, hpreempt, hmem, hcleared, hrep⟩ := h.take hsplit hlists
      have hblock : PageBlock s.pages group b g := h.exists_free (by simp [hsplit])
      have hfree : b ∈ contents g := by simp [hsplit]
      refine Or.inr ⟨b, a, _, kmallocLocked_some hfind htake, hfree, hlock, hpreempt, hmem,
        fun a' hmem' hclear => ?_, hrep⟩
      have hpages : pagesAfter s.pages s.alloc.mem a'.mem = s.pages := by
        rw [hmem', hmem]
        exact pagesAfter_same fun f hf => h.notFree hf
      refine ⟨hsize, hclear _ _ hcleared, ?_, ?_, fun c hc => ?_, fun f' hf' => ?_⟩
      · obtain ⟨f, hf, -, idx, hidx, rfl⟩ := hblock
        exact (choice_spec hreq hchoice (h.frame_lt hf) hidx hsize).1
      · obtain ⟨f, hf, -, idx, hidx, rfl⟩ := hblock
        exact (choice_spec hreq hchoice (h.frame_lt hf) hidx hsize).2
      · refine hblock.apart (h.exists_live hc) fun heq => ?_
        exact h.not_live_of_free hfree (heq ▸ List.mem_map_of_mem hc)
      · rw [hpages] at hf'
        obtain ⟨f, hf, -, idx, hidx, rfl⟩ := hblock
        obtain ⟨hlo, hhi⟩ := cache2block_bounds hidx (pageOf f)
        have hmin : 64 ≤ blockSize g := by
          clear * -
          revert g
          decide
        unfold pageOf pgSize sizeofMemCache at *
        omega

end BlockRep

namespace BlockInv

open Allocator

variable {s : BlockState} {contents : Group → List Nat} {group : Nat → Group} {g : Group}
  {b size alignment boundary : Nat}

theorem ready (h : BlockInv s contents group) : s.alloc.Ready contents :=
  ⟨h.rep.stocked, h.lock, h.preempt⟩

theorem used (h : BlockInv s contents group) : ∀ f ∈ s.pages, f ∉ s.alloc.mem.freeFrames :=
  fun _ hf => h.rep.notFree hf

/-- A request searches in vain, or is refused for want of a frame, or is granted. -/
theorem kmalloc (h : BlockInv s contents group) (hreq : Request size alignment boundary)
    (addr : Nat) :
    ∃ status b a, s.alloc.kmalloc size alignment boundary addr = some (status, b, a) ∧
      s.alloc.mem.TakesOne a.mem ∧
      ((status = .kNotFound ∧ ∃ g, groupOf size = some g ∧ Unsuitable size alignment boundary g) ∨
        (status = .kNomem ∧ s.alloc.mem.NoFrame ∧
          BlockInv { s with alloc := a, pages := pagesAfter s.pages s.alloc.mem a.mem } contents
            group) ∨
        (status = .kSuccess ∧ ∃ g, groupOf size = some g ∧
          Granted s a size alignment boundary b g ∧ ∃ contents' group',
            BlockInv
              { s with
                alloc := a
                live := (b, g) :: s.live
                pages := pagesAfter s.pages s.alloc.mem a.mem } contents' group')) := by
  obtain ⟨g, hg, -⟩ := groupOf_eq_some hreq.size_le
  have hheld : BlockRep { s with alloc := Ready.held s.alloc g } contents group :=
    h.rep.locked ..
  have hunlock {a : Allocator} (hlock : a.lock = (Ready.held s.alloc g).lock)
      (hpreempt : a.preemptCount = (Ready.held s.alloc g).preemptCount) :
      (∀ k, (a.spinlockUnlock g).lock k = 1) ∧
        (a.spinlockUnlock g).preemptCount < wordSize := by
    obtain ⟨hlock, hpreempt⟩ := h.ready.unlock_lock hlock hpreempt
    exact ⟨hlock, hpreempt.trans_lt h.preempt⟩
  rw [h.ready.kmalloc_eq hg hreq.size_le]
  by_cases hnil : contents g = []
  · simp only [if_pos hnil]
    rcases hheld.refill hnil with ⟨hno, hrefill⟩ |
      ⟨f, a, hnew, hf, hrefill, hlock, hpreempt, hfree, hrep⟩
    · -- no frame: the lock is given back
      obtain ⟨hlocks, hcount⟩ := hunlock (a := Ready.held s.alloc g) rfl rfl
      simp only [hrefill]
      refine ⟨.kNomem, addr, (Ready.held s.alloc g).spinlockUnlock g, rfl,
        .refl _, Or.inr (Or.inl ⟨rfl, hno, ?_⟩)⟩
      have hpages : pagesAfter s.pages s.alloc.mem
          ((Ready.held s.alloc g).spinlockUnlock g).mem = s.pages := pagesAfter_same h.used
      rw [hpages]
      exact ⟨h.rep.locked .., hlocks, hcount, h.inUse⟩
    · have hpages {m : Mem} (hm : m = a.mem) :
          pagesAfter s.pages s.alloc.mem m = insert f s.pages :=
        pagesAfter_taken h.used hf (hm ▸ hfree)
      have hsub : s.alloc.mem.TakesOne a.mem := by
        constructor
        · rw [hfree]
          exact Finset.sdiff_subset
        · rw [hfree]
          exact Finset.card_le_card_sdiff_add_card
      have hne : Function.update contents g (pageBlocks f g) g ≠ [] := by
        rw [Function.update_self]
        exact pageBlocks_ne_nil f g
      simp only [hrefill, ne_eq, not_true_eq_false, if_false]
      rcases hrep.kmallocLocked hreq hg hne addr with
        ⟨hnone, hsearch⟩ |
        ⟨b, a', contents', hsome, hmem, hlock', hpreempt', hmem', hgranted, hrep'⟩
      · exact ⟨_, _, _, hnone, hsub, Or.inl ⟨rfl, g, hg, hsearch⟩⟩
      · obtain ⟨hlocks, hcount⟩ := hunlock (hlock'.trans hlock) (hpreempt'.trans hpreempt)
        have hgrant := hgranted (a'.spinlockUnlock g) rfl fun _ _ => id
        have hold : pagesAfter (insert f s.pages) a.mem (a'.spinlockUnlock g).mem =
            insert f s.pages := by
          change pagesAfter _ _ a'.mem = _
          rw [hmem']
          exact pagesAfter_same fun f' hf' => hrep.notFree hf'
        refine ⟨_, _, _, hsome, hmem'.symm ▸ hsub, Or.inr (Or.inr ⟨rfl, g, hg,
          ⟨hgrant.size_le, hgrant.cleared, hgrant.aligned, hgrant.inside, hgrant.apart, ?_⟩,
          contents', Function.update group f g, ?_⟩)⟩
        · rw [hpages (m := (a'.spinlockUnlock g).mem) hmem', ← hold]
          exact hgrant.headers
        · rw [hpages (m := (a'.spinlockUnlock g).mem) hmem']
          refine ⟨hrep'.locked .., hlocks, hcount, Finset.forall_mem_insert .. |>.mpr
            ⟨⟨(b, g), List.mem_cons_self, ?_⟩, fun f' hf' => ?_⟩⟩
          · rw [Function.update_self] at hmem
            obtain ⟨idx, hidx, rfl⟩ := mem_pageBlocks.mp hmem
            exact block2cache_cache2block (hrep.frame_lt (Finset.mem_insert_self ..)) hidx
          · obtain ⟨c, hc, hpage⟩ := h.inUse f' hf'
            exact ⟨c, List.mem_cons_of_mem _ hc, hpage⟩
  · simp only [if_neg hnil]
    rcases hheld.kmallocLocked hreq hg hnil addr with
      ⟨hnone, hsearch⟩ | ⟨b, a, contents', hsome, -, hlock, hpreempt, hmem, hgranted, hrep⟩
    · exact ⟨_, _, _, hnone, .refl _, Or.inl ⟨rfl, g, hg, hsearch⟩⟩
    · obtain ⟨hlocks, hcount⟩ := hunlock hlock hpreempt
      have hgrant := hgranted (a.spinlockUnlock g) rfl fun _ _ => id
      have hpages : pagesAfter s.pages s.alloc.mem (a.spinlockUnlock g).mem = s.pages := by
        change pagesAfter _ _ a.mem = _
        rw [hmem]
        exact pagesAfter_same h.used
      refine ⟨_, _, _, hsome, hmem.symm ▸ .refl _, Or.inr (Or.inr ⟨rfl, g, hg,
        ⟨hgrant.size_le, hgrant.cleared, hgrant.aligned, hgrant.inside, hgrant.apart,
          hgrant.headers⟩, contents', group, ?_⟩)⟩
      rw [hpages]
      refine ⟨hrep.locked .., hlocks, hcount, fun f hf => ?_⟩
      obtain ⟨c, hc, hpage⟩ := h.inUse f hf
      exact ⟨c, List.mem_cons_of_mem _ hc, hpage⟩

end BlockInv

/-! ## `kfree` -/

/-- No other block of the page is in use. -/
def BlockState.LastInPage (s : BlockState) (b : Nat) : Prop :=
  ∀ c ∈ s.live, Allocator.block2cache c.1 = Allocator.block2cache b → c.1 = b

/-- The frame a block lies in. -/
def Allocator.frameOf (b : Nat) : Nat := virtToPhys (block2cache b) / pgSize

namespace Allocator

variable {s : Allocator} {g : Group} {f idx cnt : Nat}

theorem frameOf_cache2block (hf : f < 16384) (hidx : idx < numBlocks g) :
    frameOf (cache2block (pageOf f) g idx) = f := by
  rw [frameOf, block2cache_cache2block hf hidx, virtToPhys_pageOf hf,
    Nat.mul_div_cancel _ (by decide)]

theorem kfree_eq (hf : f < 16384) (hidx : idx < numBlocks g) (hcnt : cnt < numBlocks g)
    (hcache : s.caches (pageOf f) = some ⟨g, numBlocks g, cnt⟩) (hlock : s.lock g = 1)
    {lists : Heap Group Nat}
    (happend : s.lists.listAppend g (.elem (cache2block (pageOf f) g idx)) = some lists) :
    s.kfree (cache2block (pageOf f) g idx) =
      ((if cnt + 1 = numBlocks g then
          ((Ready.held s g).putBack g (pageOf f) idx cnt lists).releasePage g (pageOf f)
            (numBlocks g)
        else some ((Ready.held s g).putBack g (pageOf f) idx cnt lists)).map
          fun t => t.spinlockUnlock g) := by
  have hblock : IsBlock (cache2block (pageOf f) g idx) := ⟨f, idx, g, hf, hidx, rfl⟩
  have hn := numBlocks_pos g
  have haligned : cache2block (pageOf f) g idx &&& (blockSize g - 1) = 0 := by
    have hdvd : blockSize g ∣ cache2block (pageOf f) g idx :=
      dvd_block ⟨6 + g, blockSize_eq g⟩ le_rfl
    rw [blockSize_eq] at hdvd ⊢
    rw [Nat.and_two_pow_sub_one_eq_mod]
    exact Nat.mod_eq_zero_of_dvd hdvd
  have hadd : add64 cnt 1 = cnt + 1 := add64_of_lt (by unfold wordSize; omega)
  unfold kfree
  rw [if_neg hblock.ne_zero, block2cache_cache2block hf hidx]
  change (s.caches (pageOf f)).bind _ = _
  rw [hcache, Option.bind_some, if_neg (not_not.mpr haligned)]
  change (spinlockLock _ g).bind _ = _
  rw [spinlockLock, if_pos hlock, Option.bind_some]
  change (s.lists.listAppend g _).bind _ = _
  rw [happend, Option.bind_some, blockIndex_cache2block hf hidx, hadd]
  change (if cnt + 1 = numBlocks g then
      (((Ready.held s g).putBack g (pageOf f) idx cnt lists).releasePage g (pageOf f)
        (numBlocks g)).bind fun t => some (t.spinlockUnlock g)
    else some (((Ready.held s g).putBack g (pageOf f) idx cnt lists).spinlockUnlock g)) = _
  split
  · rw [Option.map_eq_bind]
    rfl
  · rfl

end Allocator

namespace BlockInv

open Allocator

variable {s : BlockState} {contents : Group → List Nat} {group : Nat → Group} {g : Group}
  {b : Nat}

/-- A block in use is freed, and its page is given back just when it was the last one. -/
theorem kfree (h : BlockInv s contents group) (hb : (b, g) ∈ s.live) :
    ∃ a, s.alloc.kfree b = some a ∧
      ((s.LastInPage b ∧ a.mem.freeFrames = insert (frameOf b) s.alloc.mem.freeFrames) ∨
        (¬ s.LastInPage b ∧ a.mem.freeFrames = s.alloc.mem.freeFrames)) ∧
      ∃ contents', BlockInv
        { s with
          alloc := a
          live := s.live.filter fun c => c.1 ≠ b
          pages := pagesAfter s.pages s.alloc.mem a.mem } contents' group := by
  obtain ⟨f, hf, rfl, idx, hidx, rfl⟩ := h.rep.exists_live hb
  have hlt := h.rep.frame_lt hf
  have hheld : BlockRep { s with alloc := Ready.held s.alloc (group f) } contents group :=
    h.rep.locked ..
  obtain ⟨lists, happend, hput⟩ := hheld.put hf hidx hb
  have hpage := block2cache_cache2block hlt hidx
  set b := cache2block (pageOf f) (group f) idx with hbdef
  set live := s.live.filter fun c => c.1 ≠ b with hlive
  have hunlock {a : Allocator} (hlock : a.lock = (Ready.held s.alloc (group f)).lock)
      (hpreempt : a.preemptCount = (Ready.held s.alloc (group f)).preemptCount) :
      (∀ k, (a.spinlockUnlock (group f)).lock k = 1) ∧
        (a.spinlockUnlock (group f)).preemptCount < wordSize := by
    obtain ⟨hlock, hpreempt⟩ := h.ready.unlock_lock hlock hpreempt
    exact ⟨hlock, hpreempt.trans_lt h.preempt⟩
  -- the header counts the blocks of the page that are not in use any more
  have hcount : (inPage f (contents (group f))).length + 1 + (inPage f (live.map (·.1))).length =
      numBlocks (group f) := by
    have hlen := (hput.blocks f hf).length_eq
    simp only [Function.update_self, List.length_append, length_pageBlocks, inPage_append,
      inPage_cons hpage, List.length_cons] at hlen
    simp only [inPage, List.filter_nil, List.length_nil] at hlen ⊢
    omega
  have hlast : inPage f (live.map (·.1)) = [] ↔ s.LastInPage b := by
    rw [List.eq_nil_iff_forall_not_mem]
    constructor
    · intro hnone c hc hsame
      by_contra hne
      refine hnone c.1 (mem_inPage.mpr ⟨List.mem_map_of_mem ?_, hsame.trans hpage⟩)
      exact List.mem_filter.mpr ⟨hc, by simpa using hne⟩
    · intro hlast x hx
      obtain ⟨hx, hxpage⟩ := mem_inPage.mp hx
      obtain ⟨c, hc, rfl⟩ := List.mem_map.mp hx
      obtain ⟨hc, hne⟩ := List.mem_filter.mp hc
      exact absurd (hlast c hc (hxpage.trans hpage.symm)) (by simpa using hne)
  -- blocks of other pages stay in use
  have hkeep {f' : Nat} (hf' : f' ∈ s.pages) (hne : f' ≠ f) :
      ∃ c ∈ live, block2cache c.1 = pageOf f' := by
    obtain ⟨c, hc, hcpage⟩ := h.inUse f' hf'
    refine ⟨c, List.mem_filter.mpr ⟨hc, ?_⟩, hcpage⟩
    rw [decide_eq_true_eq]
    rintro heq
    exact hne (pageOf_injective (hcpage.symm.trans (heq ▸ hpage)))
  have hcnt : (inPage f (contents (group f))).length < numBlocks (group f) := by omega
  have hkfree := kfree_eq hlt hidx hcnt
    (h.rep.header f hf) (h.lock (group f)) happend
  by_cases hall : inPage f (live.map (·.1)) = []
  · obtain ⟨a, hrelease, hlock, hpreempt, hfree, hrep⟩ := hput.release hf hall
    obtain ⟨hlocks, hpre⟩ := hunlock hlock hpreempt
    rw [hall, List.length_nil] at hcount
    rw [if_pos (by omega), hrelease] at hkfree
    have hpages : pagesAfter s.pages s.alloc.mem (a.spinlockUnlock (group f)).mem =
        s.pages.erase f := pagesAfter_given h.used hfree
    refine ⟨_, hkfree, Or.inl ⟨hlast.mp hall, ?_⟩, ?_⟩
    · rw [hbdef, frameOf_cache2block hlt hidx]
      exact hfree
    · rw [hpages]
      exact ⟨_, hrep.locked .., hlocks, hpre, fun f' hf' =>
        hkeep (Finset.mem_erase.mp hf').2 (Finset.mem_erase.mp hf').1⟩
  · have hpos := List.length_pos_of_ne_nil hall
    set a := (Ready.held s.alloc (group f)).putBack (group f) (pageOf f) idx
      (inPage f (contents (group f))).length lists
    obtain ⟨hlocks, hpre⟩ := hunlock (a := a) rfl rfl
    rw [if_neg (by omega)] at hkfree
    have hpages : pagesAfter s.pages s.alloc.mem (a.spinlockUnlock (group f)).mem = s.pages :=
      pagesAfter_same h.used
    refine ⟨_, hkfree, Or.inr ⟨mt hlast.mpr hall, rfl⟩, ?_⟩
    rw [hpages]
    refine ⟨_, hput.locked .., hlocks, hpre, fun f' hf' => ?_⟩
    by_cases hne : f' = f
    · obtain ⟨x, hx⟩ := List.exists_mem_of_ne_nil _ hall
      obtain ⟨hx, hxpage⟩ := mem_inPage.mp hx
      obtain ⟨c, hc, rfl⟩ := List.mem_map.mp hx
      exact ⟨c, hc, hne ▸ hxpage⟩
    · exact hkeep hf' hne

/-! ## The users and the other frames -/

/-- Users may not write the header of a page. -/
theorem not_open_header (h : BlockInv s contents group) {f : Nat} (hf : f ∈ s.pages) :
    ¬ s.Open (pageOf f) := by
  rintro (⟨c, hc, hlo, hhi⟩ | hout)
  · obtain ⟨f', hf', hgroup, idx, hidx, heq⟩ := h.rep.exists_live (b := c.1) (g := c.2) hc
    obtain ⟨hlo', hhi'⟩ := cache2block_bounds hidx (pageOf f')
    have hpos := blockSize_pos c.2
    unfold pageOf pgSize at *
    omega
  · exact hout f hf ⟨le_rfl, Nat.lt_add_of_pos_right (by decide)⟩

/-- Users may not write the start of a free block. -/
theorem not_open_free (h : BlockInv s contents group) (hb : b ∈ contents g) : ¬ s.Open b := by
  have hblock := h.rep.exists_free hb
  rintro (⟨c, hc, hlo, hhi⟩ | hout)
  · have hlive := h.rep.exists_live (b := c.1) (g := c.2) hc
    have hpos := blockSize_pos g
    have hne : b ≠ c.1 := fun heq =>
      h.rep.not_live_of_free hb (heq ▸ List.mem_map_of_mem hc)
    rcases hblock.apart hlive hne with hapart | hapart <;> omega
  · obtain ⟨f, hf, -, idx, hidx, rfl⟩ := hblock
    obtain ⟨hlo, hhi⟩ := mem_page_of_index (f := f) hidx
    exact hout f hf ⟨hlo.le, hhi⟩

/-- What users may write does not matter. -/
theorem congr (h : BlockInv s contents group) {a : Allocator}
    (hcaches : ∀ x, ¬ s.Open x → a.caches x = s.alloc.caches x)
    (hmagic : ∀ x, ¬ s.Open x → a.magic x = s.alloc.magic x)
    (hlinks : ∀ n, (∀ x, n = .elem x → ¬ s.Open x) →
      a.lists.next n = s.alloc.lists.next n ∧ a.lists.prev n = s.alloc.lists.prev n)
    (htotal : a.totalFree = s.alloc.totalFree) (hlock : a.lock = s.alloc.lock)
    (hpreempt : a.preemptCount = s.alloc.preemptCount) (hmem : a.mem = s.alloc.mem) :
    BlockInv { s with alloc := a } contents group := by
  have hframes : FrameInv ⟨a.mem, s.others⟩ := hmem.symm ▸ h.rep.frames
  refine ⟨⟨h.rep.holds.congr (fun g _ n hn => ?_) fun g hg => absurd trivial hg, hframes,
    fun f hf => ?_, fun f hf => ?_, fun g => ?_, h.rep.free, h.rep.live, h.rep.blocks,
    fun f hf idx hidx hb => ?_⟩, fun g => ?_, ?_, h.inUse⟩
  · refine hlinks n ?_
    rintro x rfl
    exact h.not_open_free (g := g) (by simpa [Heap.mem_nodes] using hn)
  · change FrameInv ⟨a.mem, _⟩
    rw [hmem]
    exact h.rep.page f hf
  · exact (hcaches _ (h.not_open_header hf)).trans (h.rep.header f hf)
  · exact (congrFun htotal g).trans (h.rep.total g)
  · exact (hmagic _ (h.not_open_free hb)).trans (h.rep.magic f hf idx hidx hb)
  · exact (congrFun hlock g).trans (h.lock g)
  · exact hpreempt.trans_lt h.preempt

/-- A store of a user to memory of its own. -/
theorem store (h : BlockInv s contents group) {a : Nat} (hopen : s.Open a) (cell : Cell) :
    BlockInv { s with alloc := s.alloc.store a cell } contents group := by
  have hne {x : Nat} (hx : ¬ s.Open x) : x ≠ a := fun heq => hx (heq ▸ hopen)
  refine h.congr (fun x hx => Function.update_of_ne (hne hx) ..)
    (fun x hx => Function.update_of_ne (hne hx) ..) (fun n hn => ?_) rfl rfl rfl rfl
  have hn : n ≠ .elem a := fun heq => hn a heq hopen
  exact ⟨Function.update_of_ne hn .., Function.update_of_ne hn ..⟩

/-- A call of another user of the frame allocator. -/
theorem frames (h : BlockInv s contents group) {c : FrameCall} {t : FrameState}
    (hstep : frameStep ⟨s.alloc.mem, s.others⟩ c = some t) :
    BlockInv { s with alloc := { s.alloc with mem := t.mem }, others := t.live } contents
      group := by
  have hframes : FrameInv t := by
    cases c with
    | alloc n => exact h.rep.frames.alloc hstep
    | free addr n => exact h.rep.frames.free hstep
  exact ⟨⟨h.rep.holds, hframes, fun f hf => (h.rep.page f hf).otherStep hstep, h.rep.header,
    h.rep.total, h.rep.free, h.rep.live, h.rep.blocks, h.rep.magic⟩, h.lock, h.preempt, h.inUse⟩

/-! ## Runs -/

theorem init (hinit : BlockInit s) : BlockInv s (fun _ => []) fun _ => 0 := by
  obtain ⟨a, hlists, halloc⟩ := hinit.alloc
  have hlive := hinit.live
  have hpages := hinit.pages
  have hholds : s.alloc.lists.Holds (fun _ => True) fun _ => [] := by
    have hinit := Heap.Holds.initLists Nat (List.finRange numberOfMemoryBlockTypes).reverse
      (List.nodup_reverse.mpr (List.nodup_finRange _))
    rw [List.foldr_reverse] at hinit
    rw [halloc, memAllocatorInit, hlists]
    exact hinit.congr_used fun g => iff_of_true (by simp) trivial
  refine ⟨⟨hholds, hinit.frames, ?_, ?_, fun g => ?_, nofun, ?_, ?_, ?_⟩, fun g => ?_,
    hinit.preempt, ?_⟩
  · simp [hpages]
  · simp [hpages]
  · rw [halloc]
    rfl
  · simp [hlive]
  · simp [hpages]
  · simp [hpages]
  · rw [halloc]
    rfl
  · simp [hpages]

/-- Every call keeps the invariant. -/
theorem step (h : BlockInv s contents group) {c : BlockCall} (hallowed : BlockAllowed s c)
    {t : BlockState} (hstep : blockStep s c = some t) :
    ∃ contents' group', BlockInv t contents' group' := by
  cases c with
  | kmalloc size alignment boundary addr =>
      obtain ⟨hreq, hfound⟩ := hallowed
      obtain ⟨status, b, a, heq, -, hout⟩ := h.kmalloc hreq addr
      simp only [blockStep, heq, Option.bind_eq_bind, Option.bind_some, Option.pure_def,
        Option.some.injEq] at hstep
      subst hstep
      rcases hout with ⟨rfl, -⟩ | ⟨rfl, -, hinv⟩ | ⟨rfl, g, hg, -, contents', group', hinv⟩
      · exact absurd heq (hfound b a)
      · exact ⟨contents, group, hinv⟩
      · simp only [hg]
        exact ⟨contents', group', hinv⟩
  | kfree addr =>
      obtain ⟨g, hlive⟩ := hallowed
      obtain ⟨a, heq, -, contents', hinv⟩ := h.kfree hlive
      simp only [blockStep, heq, Option.bind_eq_bind, Option.bind_some, Option.pure_def,
        Option.some.injEq] at hstep
      exact ⟨contents', group, hstep ▸ hinv⟩
  | store a cell =>
      cases hstep
      exact ⟨contents, group, h.store hallowed cell⟩
  | frames c =>
      simp only [blockStep, Option.bind_eq_bind, Option.bind_eq_some_iff] at hstep
      obtain ⟨u, hu, hstep⟩ := hstep
      cases hstep
      exact ⟨contents, group, h.frames hu⟩

theorem of_reachable (hreach : blockSystem.ReachableWhen BlockAllowed s) :
    ∃ contents group, BlockInv s contents group := by
  refine hreach.invariant (P := fun s => ∃ contents group, BlockInv s contents group) ?_ ?_
  · exact fun s hinit => ⟨_, _, init hinit⟩
  · rintro s c t ⟨contents, group, h⟩ hallowed hstep
    exact h.step hallowed hstep

end BlockInv

/-- What the header of a page counts for a group. -/
def Allocator.cntOf (s : Allocator) (g : Group) (f : Nat) : Nat :=
  match s.caches (pageOf f) with
  | some cache => if cache.group = g then cache.cnt else 0
  | none => 0

open Allocator in
/-- The lists hold `contents`, the counters count them, and every free block carries its magic. -/
structure BlockSound (s : BlockState) (contents : Group → List Nat) : Prop where
  holds : s.alloc.lists.Holds (fun _ => True) contents
  totalFree_length : ∀ g, s.alloc.totalFree g = (contents g).length
  totalFree_sum : ∀ g, s.alloc.totalFree g = ∑ f ∈ s.pages, s.alloc.cntOf g f
  magic : ∀ g, ∀ b ∈ contents g, ∃ cache, s.alloc.caches (block2cache b) = some cache ∧
    cache.group = g ∧
    s.alloc.magic b = blockIndex (block2cache b) cache.group b + cache.numberOfBlocks
  inUse : ∀ f ∈ s.pages, ∃ b ∈ s.live, block2cache b.1 = pageOf f

open Allocator in
theorem BlockInv.sound {s : BlockState} {contents : Group → List Nat} {group : Nat → Group}
    (h : BlockInv s contents group) : BlockSound s contents where
  holds := h.rep.holds
  totalFree_length := h.rep.total
  totalFree_sum g := by
    have hcnt (f : Nat) (hf : f ∈ s.pages) :
        s.alloc.cntOf g f = (inPage f (contents g)).length := by
      simp only [cntOf, h.rep.header f hf]
      split
      · next heq => rw [heq]
      · next hne => rw [h.rep.inPage_of_ne hne, List.length_nil]
    rw [h.rep.total, Finset.sum_congr rfl hcnt, h.rep.sum_inPage]
  magic g b hb := by
    obtain ⟨f, hf, rfl, idx, hidx, rfl⟩ := h.rep.exists_free hb
    have hlt := h.rep.frame_lt hf
    refine ⟨_, (block2cache_cache2block hlt hidx).symm ▸ h.rep.header f hf, rfl, ?_⟩
    rw [block2cache_cache2block hlt hidx, blockIndex_cache2block hlt hidx]
    exact h.rep.magic f hf idx hidx hb
  inUse := h.inUse

/-- Over every history the counters and the lists agree and every page has a block in use; no
request or release fails an `ASSERT` or waits for ever; a block that is given out is cleared,
aligned and inside of a boundary as was asked for, and apart from all blocks in use and all
headers; and a frame is given back just when the last block in use of its page is freed. -/
theorem blockSystem_sound {s : BlockState}
    (hreach : blockSystem.ReachableWhen BlockAllowed s) :
    (∃ contents, BlockSound s contents) ∧
    (∀ size alignment boundary addr, Request size alignment boundary →
      ∃ status b a, s.alloc.kmalloc size alignment boundary addr = some (status, b, a) ∧
        a.mem.freeFrames ⊆ s.alloc.mem.freeFrames ∧
        (status = .kSuccess → ∃ g, Allocator.groupOf size = some g ∧
          Granted s a size alignment boundary b g)) ∧
    ∀ b g, (b, g) ∈ s.live → ∃ a, s.alloc.kfree b = some a ∧
      ((s.LastInPage b ∧
          a.mem.freeFrames = insert (Allocator.frameOf b) s.alloc.mem.freeFrames) ∨
        (¬ s.LastInPage b ∧ a.mem.freeFrames = s.alloc.mem.freeFrames)) := by
  obtain ⟨contents, group, h⟩ := BlockInv.of_reachable hreach
  refine ⟨⟨contents, h.sound⟩, fun size alignment boundary addr hreq => ?_, fun b g hb => ?_⟩
  · obtain ⟨status, b, a, heq, hsub, hout⟩ := h.kmalloc hreq addr
    refine ⟨status, b, a, heq, hsub.subset, ?_⟩
    rintro rfl
    rcases hout with ⟨hno, -⟩ | ⟨hno, -⟩ | ⟨-, g, hg, hgranted, -⟩
    · cases hno
    · cases hno
    · exact ⟨g, hg, hgranted⟩
  · obtain ⟨a, heq, hlast, -⟩ := h.kfree hb
    exact ⟨a, heq, hlast⟩

/-- The allocator of a machine with 13 free frames. -/
def bootBlocks : BlockState := ⟨Allocator.boot, [], ∅, []⟩

theorem bootBlocks_init : BlockInit bootBlocks where
  alloc := ⟨_, rfl, rfl⟩
  preempt := by decide
  frames := FrameInv.of_reachable (.init bootFrames_init)
  live := rfl
  pages := rfl

theorem request_64 : Request 64 0 0 where
  pos := by decide
  size_le := by decide
  alignment_lt := by decide
  boundary_lt := by decide
  alignment_pow := Or.inl rfl
  boundary_pow := Or.inl rfl

/-- A run that ends with one block in use. -/
theorem exists_oneBlock :
    ∃ s b g, blockSystem.ReachableWhen BlockAllowed s ∧ s.live = [(b, g)] := by
  have hboot : blockSystem.ReachableWhen BlockAllowed bootBlocks := .init bootBlocks_init
  obtain ⟨contents, group, h⟩ := BlockInv.of_reachable hboot
  obtain ⟨status, b, a, heq, -, hout⟩ := h.kmalloc request_64 0
  rcases hout with ⟨-, g, -, hsearch⟩ | ⟨-, hno, -⟩ | ⟨rfl, g, hg, -⟩
  · exact absurd ⟨by decide, rfl⟩ hsearch.1
  · exact absurd hno Allocator.boot_frame
  · have hallowed : BlockAllowed bootBlocks (.kmalloc 64 0 0 0) := by
      refine ⟨request_64, fun b' a' heq' => ?_⟩
      rw [heq] at heq'
      cases heq'
    have hstep : blockStep bootBlocks (.kmalloc 64 0 0 0) =
        some ⟨a, [(b, g)], pagesAfter ∅ bootBlocks.alloc.mem a.mem, []⟩ := by
      simp only [blockStep, heq, hg, Option.bind_eq_bind, Option.bind_some]
      rfl
    exact ⟨_, b, g, hboot.step hallowed hstep, rfl⟩

/-- The page of the only block in use is given back with it. -/
theorem blockSystem_sound_oneBlock : ∃ (s : BlockState) (b : Nat) (g : Group) (a : Allocator),
    s.live = [(b, g)] ∧ s.alloc.kfree b = some a ∧
      a.mem.freeFrames = insert (Allocator.frameOf b) s.alloc.mem.freeFrames := by
  obtain ⟨s, b, g, hreach, hlive⟩ := exists_oneBlock
  obtain ⟨-, -, hfree⟩ := blockSystem_sound hreach
  obtain ⟨a, heq, hframes⟩ := hfree b g (by simp [hlive])
  rcases hframes with ⟨-, hframes⟩ | ⟨hnot, -⟩
  · exact ⟨s, b, g, a, hlive, heq, hframes⟩
  · exact absurd (fun c hc _ => by
      rw [hlive, List.mem_singleton] at hc
      rw [hc]) hnot

end ClayFigure
