/-
# What `kmalloc` does

The ways out of `kmalloc` and what each leaves behind, for an allocator whose free lists
hold blocks of pages it owns. One of them, a search that ends without a suitable block,
returns with the lock of the group held.
-/

import ClayFigure.Mem.Allocator

namespace ClayFigure

open ClayFigure.Math

namespace Allocator

/-- A block of a page of group `g`, with its magic in place. -/
structure OwnBlock (s : Allocator) (g : Group) (f idx : Nat) : Prop where
  frame : f < 16384
  used : f ∉ s.mem.freeFrames
  index : idx < numBlocks g
  cache : ∃ cnt, s.caches (pageOf f) = some ⟨g, numBlocks g, cnt⟩
  magic : s.magic (cache2block (pageOf f) g idx) = idx + numBlocks g

/-- The free lists hold `contents`, blocks of pages the allocator owns. -/
structure Stocked (s : Allocator) (contents : Group → List Nat) : Prop where
  holds : s.lists.Holds (fun _ => True) contents
  block : ∀ g, ∀ b ∈ contents g, ∃ f idx, b = cache2block (pageOf f) g idx ∧ s.OwnBlock g f idx

/-- An allocator between two calls. -/
structure Ready (s : Allocator) (contents : Group → List Nat) : Prop where
  stocked : s.Stocked contents
  lock : ∀ g, s.lock g = 1
  preempt : s.preemptCount < wordSize

variable {s t : Allocator} {contents : Group → List Nat} {g : Group}
  {size alignment boundary : Nat}

/-- Pages of different frames share no address. -/
theorem frame_eq_of_mem {f f' a : Nat} (h : pageOf f ≤ a ∧ a < pageOf f + pgSize)
    (h' : pageOf f' ≤ a ∧ a < pageOf f' + pgSize) : f = f' := by
  unfold pageOf pgSize at *
  omega

/-- A block lies in its page, behind the header. -/
theorem mem_page_of_index {f idx : Nat} (hidx : idx < numBlocks g) :
    pageOf f < cache2block (pageOf f) g idx ∧
      cache2block (pageOf f) g idx < pageOf f + pgSize := by
  obtain ⟨hlo, hhi⟩ := cache2block_bounds hidx (pageOf f)
  have hpos := blockSize_pos g
  exact ⟨by omega, by omega⟩

theorem OwnBlock.mem_page {f idx : Nat} (h : s.OwnBlock g f idx) :
    pageOf f < cache2block (pageOf f) g idx ∧
      cache2block (pageOf f) g idx < pageOf f + pgSize :=
  mem_page_of_index h.index

namespace Stocked

/-- The blocks in the lists are addresses, so no list is longer than the search. -/
theorem length_lt (h : s.Stocked contents) (g : Group) : (contents g).length < wordSize := by
  have hsub : (contents g).toFinset ⊆ Finset.Ico 1 wordSize := by
    intro b hb
    obtain ⟨f, idx, rfl, hown⟩ := h.block g b (List.mem_toFinset.mp hb)
    obtain ⟨hlo, hhi⟩ := cache2block_bounds hown.index (pageOf f)
    have hlt := pageOf_lt hown.frame
    have hpos := blockSize_pos g
    rw [Finset.mem_Ico]
    omega
  have hcard := Finset.card_le_card hsub
  rw [List.toFinset_card_of_nodup (h.holds.nodup g trivial), Nat.card_Ico] at hcard
  unfold wordSize at *
  omega

/-- The search passes every `ASSERT` and ends at the first suitable block of the rest. -/
theorem findFrom (h : s.Stocked contents) (size alignment boundary : Nat) {fuel : Nat} :
    ∀ pre post, contents g = pre ++ post → post.length < fuel →
      s.findFrom g size alignment boundary fuel (Heap.behind g post) =
        some (post.find? (suitable size alignment boundary)) := by
  induction fuel with
  | zero => exact fun _ _ _ hlen => absurd hlen (Nat.not_lt_zero _)
  | succ fuel ih =>
      intro pre post hsplit hlen
      cases post with
      | nil => simp [Allocator.findFrom]
      | cons b post =>
          obtain ⟨f, idx, rfl, hown⟩ := h.block g b (by simp [hsplit])
          obtain ⟨cnt, hcache⟩ := hown.cache
          have hnext := h.holds.next_elem trivial hsplit
          have hprev := h.holds.prev_behind trivial hsplit
          rw [List.length_cons] at hlen
          have hrest := ih (pre ++ [_]) post (by simpa using hsplit) (Nat.lt_of_succ_lt_succ hlen)
          rw [List.find?_cons]
          simp only [Allocator.findFrom, Heap.behind_cons, reduceCtorEq, if_false,
            block2cache_cache2block hown.frame hown.index, hcache, Option.bind_eq_bind,
            Option.bind_some, hnext, hprev, blockIndex_cache2block hown.frame hown.index,
            hown.magic, ne_eq, not_true_eq_false]
          cases suitable size alignment boundary (cache2block (pageOf f) g idx) with
          | true => rfl
          | false => exact hrest

/-- The block `kmalloc_find_block` chooses. -/
def choice (xs : List Nat) (size alignment boundary : Nat) : Option Nat :=
  if alignment ≤ size ∧ boundary = 0 then xs.head?
  else xs.find? (suitable size alignment boundary)

/-- `kmalloc_find_block` on a list that is not empty. -/
theorem kmallocFindBlock (h : s.Stocked contents) (hne : contents g ≠ [])
    (size alignment boundary : Nat) :
    match choice (contents g) size alignment boundary with
    | none => s.kmallocFindBlock g size alignment boundary = some (none, s)
    | some b => ∃ lists pre post, contents g = pre ++ b :: post ∧
        s.kmallocFindBlock g size alignment boundary = some (some b, { s with lists }) ∧
        lists.Holds (fun _ => True) (Function.update contents g (pre ++ post)) := by
  have hhead := h.holds.next_head (l := g) trivial
  obtain ⟨b₀, rest, hcons⟩ := List.exists_cons_of_ne_nil hne
  have hnext := h.holds.next_elem (l := g) trivial (show contents g = [] ++ b₀ :: rest from hcons)
  have hprev := h.holds.prev_behind (l := g) trivial
    (show contents g = [] ++ b₀ :: rest from hcons)
  have hfind := h.findFrom (g := g) size alignment boundary [] (contents g) rfl (h.length_lt g)
  rw [hcons] at hhead hfind
  -- the search as a whole, before the block is taken out
  have hsearch : s.kmallocFindBlock g size alignment boundary =
      match choice (contents g) size alignment boundary with
      | none => some (none, s)
      | some b => (s.lists.listRemove (.elem b)).map fun lists => (some b, { s with lists }) := by
    simp only [Allocator.kmallocFindBlock, choice, hcons, hhead, Heap.behind_cons, hnext, hprev,
      Option.bind_eq_bind, Option.bind_some, ne_eq, not_true_eq_false, if_false]
    split
    · rfl
    · rw [Heap.behind_cons] at hfind
      rw [hfind]
      rfl
  have hmem {b : Nat} (hb : choice (contents g) size alignment boundary = some b) :
      b ∈ contents g := by
    unfold choice at hb
    split at hb
    · exact List.mem_of_mem_head? hb
    · exact List.mem_of_find?_eq_some hb
  rw [hsearch]
  cases hchoice : choice (contents g) size alignment boundary with
  | none => rfl
  | some b =>
      obtain ⟨pre, post, hsplit⟩ := List.append_of_mem (hmem hchoice)
      obtain ⟨lists, hremove, hholds⟩ := h.holds.listRemove trivial pre post hsplit
      refine ⟨lists, pre, post, hsplit, ?_, hholds⟩
      simp only [hremove]
      rfl

/-- Clearing a region without a free block in it. -/
theorem memset_holds (h : s.lists.Holds (fun _ => True) contents) {start size : Nat}
    (hout : ∀ g, ∀ b ∈ contents g, ¬ (start ≤ b ∧ b < start + size)) :
    (s.memset start size).lists.Holds (fun _ => True) contents := by
  refine h.congr (fun l _ n hn => ?_) fun l hl => absurd trivial hl
  rcases Heap.mem_nodes.mp hn with rfl | rfl | ⟨b, hb, rfl⟩
  · exact ⟨rfl, rfl⟩
  · exact ⟨rfl, rfl⟩
  · simp only [memset, clearLinks, if_neg (hout l b hb)]
    exact ⟨trivial, trivial⟩

/-- The loop that makes the blocks of a new page. -/
theorem addBlocks {c : Nat} {cache : MemCache} (hcache : s.caches c = some cache)
    (hholds : s.lists.Holds (fun _ => True) contents) (n : Nat)
    (hloose : ∀ idx < n,
      Heap.Loose (fun _ => True) contents (cache2block c cache.group idx)) :
    ∃ lists magic, (List.range n).foldlM (addBlock c) s = some { s with lists, magic } ∧
      lists.Holds (fun _ => True) (Function.update contents cache.group
        (contents cache.group ++ (List.range n).map (cache2block c cache.group))) ∧
      (∀ idx < n, magic (cache2block c cache.group idx) = idx + cache.numberOfBlocks) ∧
      ∀ a, (∀ idx < n, a ≠ cache2block c cache.group idx) → magic a = s.magic a := by
  induction n with
  | zero =>
      refine ⟨s.lists, s.magic, rfl, ?_, nofun, fun _ _ => rfl⟩
      simpa using hholds
  | succ n ih =>
      obtain ⟨lists, magic, hfold, hlists, hset, hkeep⟩ :=
        ih fun idx hidx => hloose idx (Nat.lt_succ_of_lt hidx)
      have hnew : Heap.Loose (fun _ => True) (Function.update contents cache.group
          (contents cache.group ++ (List.range n).map (cache2block c cache.group)))
          (cache2block c cache.group n) := by
        intro l hl hmem
        by_cases hlg : l = cache.group
        · rw [hlg, Function.update_self] at hmem
          rcases List.mem_append.mp hmem with hmem | hmem
          · exact hloose n (Nat.lt_succ_self n) _ trivial hmem
          · obtain ⟨idx, hidx, heq⟩ := List.mem_map.mp hmem
            exact absurd (cache2block_injective heq) (List.mem_range.mp hidx).ne
        · rw [Function.update_of_ne hlg] at hmem
          exact hloose n (Nat.lt_succ_self n) l hl hmem
      obtain ⟨lists', happend, hholds'⟩ := hlists.listAppend (l := cache.group) trivial hnew
      refine ⟨lists', Function.update magic (cache2block c cache.group n)
        (n + cache.numberOfBlocks), ?_, ?_, fun idx hidx => ?_, fun a ha => ?_⟩
      · simp only [List.range_succ, List.foldlM_append, hfold, List.foldlM_cons, List.foldlM_nil,
          addBlock, hcache, happend, Option.bind_eq_bind, Option.bind_some, Option.pure_def]
      · rw [Function.update_self, Function.update_idem] at hholds'
        rw [List.range_succ, List.map_append, ← List.append_assoc]
        exact hholds'
      · rcases Nat.lt_succ_iff_lt_or_eq.mp hidx with hlt | rfl
        · rw [Function.update_of_ne fun heq => hlt.ne (cache2block_injective heq)]
          exact hset idx hlt
        · rw [Function.update_self]
      · rw [Function.update_of_ne (ha n (Nat.lt_succ_self n))]
        exact hkeep a fun idx hidx => ha idx (Nat.lt_succ_of_lt hidx)

end Stocked

/-- The blocks of a page. -/
def pageBlocks (f : Nat) (g : Group) : List Nat :=
  (List.range (numBlocks g)).map (cache2block (pageOf f) g)

theorem pageBlocks_ne_nil (f : Nat) (g : Group) : pageBlocks f g ≠ [] := by
  rw [pageBlocks, ne_eq, List.map_eq_nil_iff, List.range_eq_nil]
  exact (numBlocks_pos g).1.ne'

/-- The ways out of `refill` when no page of a free frame holds a block of a list: what the
allocator looks like with the new page. -/
theorem refill_eq (hholds : s.lists.Holds (fun _ => True) contents) (hnil : contents g = [])
    (hout : ∀ f ∈ s.mem.freeFrames, ∀ l, ∀ b ∈ contents l,
      ¬ (pageOf f ≤ b ∧ b < pageOf f + pgSize)) :
    (s.mem.NoFrame ∧ s.refill g = some (.kNomem, s)) ∨
      ∃ f m' lists magic, f < 16384 ∧ f ∈ s.mem.freeFrames ∧
        s.mem.allocPhysicalPage 1 = some ⟨.kSuccess, some (f * pgSize), m'⟩ ∧
        m'.freeFrames = s.mem.freeFrames \ {f} ∧
        s.refill g = some (.kSuccess,
          { initCache { s with mem := m' } g (pageOf f) with lists, magic }) ∧
        lists.Holds (fun _ => True) (Function.update contents g (pageBlocks f g)) ∧
        (∀ idx < numBlocks g, magic (cache2block (pageOf f) g idx) = idx + numBlocks g) ∧
        ∀ a, ¬ (pageOf f ≤ a ∧ a < pageOf f + pgSize) → magic a = s.magic a := by
  rcases s.mem.allocPhysicalPage_one with ⟨hno, addr, halloc⟩ | ⟨-, f, m', hf, hlt, halloc, hfree⟩
  · left
    refine ⟨hno, ?_⟩
    unfold Allocator.refill
    rw [halloc]
  · right
    have hpage (idx : Nat) (hidx : idx < numBlocks g) :
        pageOf f ≤ cache2block (pageOf f) g idx ∧
          cache2block (pageOf f) g idx < pageOf f + pgSize :=
      ⟨(mem_page_of_index hidx).1.le, (mem_page_of_index hidx).2⟩
    obtain ⟨lists, magic, hfold, hlists, hset, hkeep⟩ := Stocked.addBlocks
      (s := initCache { s with mem := m' } g (pageOf f)) (Function.update_self ..)
      (Stocked.memset_holds (s := { s with mem := m' }) hholds (hout f hf)) (numBlocks g)
      fun idx hidx l _ hmem => hout f hf l _ hmem (hpage idx hidx)
    refine ⟨f, m', lists, magic, hlt, hf, halloc, hfree, ?_, ?_, hset, fun a ha => ?_⟩
    · have hn : pgSize / blockSize g - 1 = numBlocks g := rfl
      unfold Allocator.refill
      rw [halloc]
      simp only [physToVirt_frame hlt, hn, hfold]
      rfl
    · rw [hnil, List.nil_append] at hlists
      exact hlists
    · rw [hkeep a fun idx hidx heq => ha (heq ▸ hpage idx hidx), magic_initCache, magic_memset,
        if_neg ha]

namespace Stocked

/-- The page of a free frame holds no block of a list. -/
theorem free_out (h : s.Stocked contents) (f : Nat) (hf : f ∈ s.mem.freeFrames) (l : Group)
    (b : Nat) (hb : b ∈ contents l) : ¬ (pageOf f ≤ b ∧ b < pageOf f + pgSize) := by
  intro hin
  obtain ⟨f', idx, rfl, hown⟩ := h.block l b hb
  have hmem := hown.mem_page
  exact hown.used (frame_eq_of_mem hin ⟨hmem.1.le, hmem.2⟩ ▸ hf)

/-- An empty group is given a page of blocks, or no frame can be had. -/
theorem refill (h : s.Stocked contents) (hnil : contents g = []) :
    (s.mem.NoFrame ∧ s.refill g = some (.kNomem, s)) ∨
      ∃ f m' t, f < 16384 ∧ f ∈ s.mem.freeFrames ∧
        s.mem.allocPhysicalPage 1 = some ⟨.kSuccess, some (f * pgSize), m'⟩ ∧
        s.refill g = some (.kSuccess, t) ∧
        t.Stocked (Function.update contents g (pageBlocks f g)) ∧
        t.lock = s.lock ∧ t.preemptCount = s.preemptCount := by
  rcases refill_eq h.holds hnil h.free_out with
    ⟨hno, heq⟩ | ⟨f, m', lists, magic, hlt, hf, halloc, hfree, heq, hlists, hset, hkeep⟩
  · exact Or.inl ⟨hno, heq⟩
  · refine Or.inr ⟨f, m', _, hlt, hf, halloc, heq, ⟨hlists, fun l b hb => ?_⟩, rfl, rfl⟩
    by_cases hlg : l = g
    · subst hlg
      rw [Function.update_self] at hb
      obtain ⟨idx, hidx, rfl⟩ := List.mem_map.mp hb
      have hidx := List.mem_range.mp hidx
      refine ⟨f, idx, rfl, hlt, ?_, hidx, ⟨numBlocks l, Function.update_self ..⟩, hset idx hidx⟩
      change f ∉ m'.freeFrames
      rw [hfree]
      simp
    · rw [Function.update_of_ne hlg] at hb
      obtain ⟨f', idx, rfl, hown⟩ := h.block l b hb
      have hin := hown.mem_page
      have hne : f' ≠ f := fun heq => hown.used (heq ▸ hf)
      have hapart (a : Nat) (ha : pageOf f' ≤ a ∧ a < pageOf f' + pgSize) :
          ¬ (pageOf f ≤ a ∧ a < pageOf f + pgSize) :=
        fun hin' => hne (frame_eq_of_mem ha hin')
      refine ⟨f', idx, rfl, hown.frame, ?_, hown.index, ?_, ?_⟩
      · change f' ∉ m'.freeFrames
        rw [hfree]
        exact fun hmem => hown.used (Finset.mem_sdiff.mp hmem).1
      · obtain ⟨cnt, hcache⟩ := hown.cache
        have hbase : pageOf f' ≤ pageOf f' ∧ pageOf f' < pageOf f' + pgSize :=
          ⟨le_rfl, Nat.lt_add_of_pos_right (by decide)⟩
        have hbase' := hapart _ hbase
        have hne' : pageOf f' ≠ pageOf f := by
          intro heq
          rw [heq] at hbase hbase'
          exact hbase' hbase
        refine ⟨cnt, ?_⟩
        simp only [caches_initCache]
        rw [if_neg hne', caches_memset, if_neg hbase']
        exact hcache
      · simp only
        rw [hkeep _ (hapart _ ⟨hin.1.le, hin.2⟩)]
        exact hown.magic

/-- The lists do not depend on the locks. -/
theorem locked (h : s.Stocked contents) {lock : Group → Nat} {preemptCount : Nat} :
    Stocked { s with lock, preemptCount } contents :=
  ⟨h.holds, fun g b hb => by
    obtain ⟨f, idx, heq, hown⟩ := h.block g b hb
    exact ⟨f, idx, heq, hown.frame, hown.used, hown.index, hown.cache, hown.magic⟩⟩

/-- Taking a block that was found: it is cleared, and its page and its group have one free block
less. -/
theorem takeBlock_eq {f idx cnt : Nat} (hf : f < 16384) (hidx : idx < numBlocks g)
    (hcache : s.caches (pageOf f) = some ⟨g, numBlocks g, cnt⟩) :
    s.takeBlock g (cache2block (pageOf f) g idx) =
      some { s.memset (cache2block (pageOf f) g idx) (blockSize g) with
        caches := Function.update
          (s.memset (cache2block (pageOf f) g idx) (blockSize g)).caches (pageOf f)
          (some ⟨g, numBlocks g, sub64 cnt 1⟩)
        totalFree := Function.update s.totalFree g ((s.totalFree g + 2 ^ 32 - 1) % 2 ^ 32) } := by
  have hout : ¬ (cache2block (pageOf f) g idx ≤ pageOf f ∧
      pageOf f < cache2block (pageOf f) g idx + blockSize g) :=
    fun h => absurd h.1 (not_le.mpr (mem_page_of_index hidx).1)
  unfold Allocator.takeBlock
  simp only [block2cache_cache2block hf hidx, caches_memset, if_neg hout, hcache,
    Option.bind_eq_bind, Option.bind_some, Option.pure_def]
  rfl

/-- Taking a block leaves the locks alone. -/
theorem takeBlock {f idx : Nat} (hown : s.OwnBlock g f idx) :
    ∃ t, s.takeBlock g (cache2block (pageOf f) g idx) = some t ∧ t.lock = s.lock ∧
      t.preemptCount = s.preemptCount := by
  obtain ⟨cnt, hcache⟩ := hown.cache
  exact ⟨_, takeBlock_eq hown.frame hown.index hcache, rfl, rfl⟩

end Stocked

/-! ## The ways out of `kmalloc` -/

/-- The alignment `kmalloc` works with. -/
def effective (size alignment : Nat) : Nat := if alignment < size then size else alignment

/-- The blocks `kmalloc` searches: the list, or the blocks of the page that refills it. -/
def candidates (s : Allocator) (contents : Group → List Nat) (g : Group) : List Nat :=
  if contents g = [] then
    match s.mem.allocPhysicalPage 1 with
    | some ⟨.kSuccess, some paddr, _⟩ =>
        (List.range (numBlocks g)).map (cache2block (physToVirt paddr) g)
    | _ => []
  else contents g

/-- The search goes through blocks none of which is suitable. -/
def NoneSuitable (s : Allocator) (contents : Group → List Nat) (size alignment boundary : Nat) :
    Prop :=
  size ≤ maxAllocateMemorySize ∧ ¬ (effective size alignment ≤ size ∧ boundary = 0) ∧
    ∃ g, groupOf size = some g ∧ s.candidates contents g ≠ [] ∧
      ∀ b ∈ s.candidates contents g, suitable size (effective size alignment) boundary b = false

/-- `kmalloc` returns with every lock free and the `preempt_count` it was called with, and
an error leaves the free lists and the counters as they were. -/
def KmallocClean (s : Allocator) (size alignment boundary addr : Nat) : Prop :=
  ∃ status value t, s.kmalloc size alignment boundary addr = some (status, value, t) ∧
    (∀ g, t.lock g = 1) ∧ t.preemptCount = s.preemptCount ∧
    (status ≠ .kSuccess → t.lists = s.lists ∧ t.totalFree = s.totalFree ∧
      t.caches = s.caches ∧ t.mem = s.mem)

/-- What `kmalloc` does once the lock is held and the list is not empty. -/
def kmallocLocked (s : Allocator) (g : Group) (size alignment boundary addr : Nat) :
    Option (Status × Nat × Allocator) := do
  let (b, s) ← s.kmallocFindBlock g size alignment boundary
  match b with
  | none => some (.kNotFound, addr, s)
  | some b => (s.takeBlock g b).map fun s => (.kSuccess, b, s.spinlockUnlock g)

theorem kmallocLocked_none {addr : Nat} {u : Allocator}
    (hfind : t.kmallocFindBlock g size alignment boundary = some (none, u)) :
    t.kmallocLocked g size alignment boundary addr = some (.kNotFound, addr, u) := by
  rw [kmallocLocked, hfind]
  rfl

theorem kmallocLocked_some {addr b : Nat} {u v : Allocator}
    (hfind : t.kmallocFindBlock g size alignment boundary = some (some b, u))
    (htake : u.takeBlock g b = some v) :
    t.kmallocLocked g size alignment boundary addr =
      some (.kSuccess, b, v.spinlockUnlock g) := by
  rw [kmallocLocked, hfind]
  change (u.takeBlock g b).map _ = _
  rw [htake]
  rfl

namespace Ready

/-- The allocator with the lock of a group held. -/
def held (s : Allocator) (g : Group) : Allocator :=
  { s with
    lock := Function.update s.lock g 0
    preemptCount := add64 s.preemptCount 1 }

theorem unlock_lock (h : s.Ready contents) (hlock : t.lock = (held s g).lock)
    (hpreempt : t.preemptCount = (held s g).preemptCount) :
    (∀ l, (t.spinlockUnlock g).lock l = 1) ∧
      (t.spinlockUnlock g).preemptCount = s.preemptCount := by
  constructor
  · intro l
    change Function.update t.lock g 1 l = 1
    rw [hlock]
    change Function.update (Function.update s.lock g 0) g 1 l = 1
    rw [Function.update_idem, Function.update_apply]
    split
    · rfl
    · exact h.lock l
  · change sub64 t.preemptCount 1 = s.preemptCount
    rw [hpreempt]
    change sub64 (add64 s.preemptCount 1) 1 = s.preemptCount
    have := h.preempt
    unfold sub64 add64 wordSize at *
    omega

theorem kmalloc_eq (h : s.Ready contents) (hg : groupOf size = some g)
    (hsize : size ≤ maxAllocateMemorySize) (alignment boundary addr : Nat) :
    s.kmalloc size alignment boundary addr =
      if contents g = [] then
        match (held s g).refill g with
        | none => none
        | some (status, t) =>
            if status ≠ .kSuccess then some (status, addr, t.spinlockUnlock g)
            else t.kmallocLocked g size (effective size alignment) boundary addr
      else (held s g).kmallocLocked g size (effective size alignment) boundary addr := by
  have hempty := h.stocked.holds.listEmpty_iff (l := g) trivial
  unfold kmalloc
  simp only [if_neg (not_lt.mpr hsize), hg, spinlockLock, if_pos (h.lock g), Option.bind_eq_bind,
    Option.bind_some]
  by_cases hnil : contents g = []
  · simp only [if_pos hnil, hempty.mpr hnil, if_true]
    change ((held s g).refill g).bind _ = _
    cases (held s g).refill g with
    | none => rfl
    | some r => rfl
  · have hfalse : s.lists.listEmpty g = false := Bool.eq_false_iff.mpr (mt hempty.mp hnil)
    simp only [if_neg hnil, hfalse, Bool.false_eq_true, if_false, ne_eq,
      not_true_eq_false]
    rfl

/-- With the lock held, the call ends well just when some candidate is chosen. -/
theorem kmallocLocked_clean (h : s.Ready contents) {contents' : Group → List Nat}
    (ht : t.Stocked contents') (hne : contents' g ≠ []) (hlock : t.lock = (held s g).lock)
    (hpreempt : t.preemptCount = (held s g).preemptCount) (size alignment boundary addr : Nat) :
    (∃ status value u, t.kmallocLocked g size alignment boundary addr = some (status, value, u) ∧
        (∀ l, u.lock l = 1) ∧ u.preemptCount = s.preemptCount ∧
        (status ≠ .kSuccess → u.lists = s.lists ∧ u.totalFree = s.totalFree ∧
          u.caches = s.caches ∧ u.mem = s.mem)) ↔
      Stocked.choice (contents' g) size alignment boundary ≠ none := by
  have hfind := ht.kmallocFindBlock hne size alignment boundary
  cases hchoice : Stocked.choice (contents' g) size alignment boundary with
  | none =>
      rw [hchoice] at hfind
      simp only at hfind
      refine iff_of_false ?_ (not_not.mpr rfl)
      rintro ⟨status, value, u, heq, hfree, -⟩
      rw [kmallocLocked_none hfind, Option.some.injEq, Prod.mk.injEq, Prod.mk.injEq] at heq
      obtain ⟨-, -, rfl⟩ := heq
      have hheld := hfree g
      rw [hlock] at hheld
      simp [held] at hheld
  | some b =>
      rw [hchoice] at hfind
      obtain ⟨lists, pre, post, hsplit, hfind, -⟩ := hfind
      obtain ⟨f, idx, rfl, hown⟩ := ht.block g b (by simp [hsplit])
      obtain ⟨u, htake, hulock, hupreempt⟩ := Stocked.takeBlock (s := { t with lists }) (g := g)
        ⟨hown.frame, hown.used, hown.index, hown.cache, hown.magic⟩
      obtain ⟨hfree, hcount⟩ := h.unlock_lock (hulock.trans hlock) (hupreempt.trans hpreempt)
      refine iff_of_true ⟨.kSuccess, cache2block (pageOf f) g idx, u.spinlockUnlock g, ?_, hfree,
        hcount, fun hne => absurd rfl hne⟩ (Option.some_ne_none _)
      exact kmallocLocked_some hfind htake

theorem choice_ne_none {xs : List Nat} (hne : xs ≠ []) (size alignment boundary : Nat) :
    Stocked.choice xs size alignment boundary ≠ none ↔
      ¬ (¬ (alignment ≤ size ∧ boundary = 0) ∧
        ∀ b ∈ xs, suitable size alignment boundary b = false) := by
  unfold Stocked.choice
  split
  · next hshort =>
      refine iff_of_true ?_ fun h => h.1 hshort
      rwa [ne_eq, List.head?_eq_none_iff]
  · next hshort =>
      rw [ne_eq, List.find?_eq_none]
      simp only [hshort, not_false_eq_true, true_and, Bool.not_eq_true]

/-- `kmalloc` keeps its promises just when it does not search in vain. -/
theorem kmallocClean_iff (h : s.Ready contents) (size alignment boundary addr : Nat) :
    s.KmallocClean size alignment boundary addr ↔
      ¬ s.NoneSuitable contents size alignment boundary := by
  by_cases hsize : maxAllocateMemorySize < size
  · refine iff_of_true ⟨.kError, addr, s, ?_, h.lock, rfl, fun _ => ⟨rfl, rfl, rfl, rfl⟩⟩
      fun hno => absurd hno.1 (not_le.mpr hsize)
    unfold kmalloc
    simp only [if_pos hsize]
  · have hsize := not_lt.mp hsize
    obtain ⟨g, hg, -⟩ := groupOf_eq_some hsize
    have hheld : (held s g).Stocked contents := h.stocked.locked
    unfold KmallocClean NoneSuitable
    rw [h.kmalloc_eq hg hsize]
    by_cases hnil : contents g = []
    · simp only [if_pos hnil]
      rcases hheld.refill hnil with
        ⟨hno, hrefill⟩ | ⟨f, m', t, hlt, -, halloc, hrefill, ht, hlock, hpreempt⟩
      · -- no frame: the lock is given back
        obtain ⟨hfree, hcount⟩ := h.unlock_lock (g := g) (t := held s g) rfl rfl
        refine iff_of_true ⟨.kNomem, addr, _, ?_, hfree, hcount, fun _ => ⟨rfl, rfl, rfl, rfl⟩⟩ ?_
        · simp only [hrefill]
          rfl
        · rintro ⟨-, -, g', hg', hcand, -⟩
          obtain rfl : g = g' := Option.some.inj (hg.symm.trans hg')
          rcases s.mem.allocPhysicalPage_one with ⟨-, a, halloc⟩ | ⟨hyes, -⟩
          · rw [candidates, if_pos hnil, halloc] at hcand
            exact hcand rfl
          · exact hyes hno
      · have hcand : s.candidates contents g = pageBlocks f g := by
          have halloc : s.mem.allocPhysicalPage 1 = some ⟨.kSuccess, some (f * pgSize), m'⟩ := halloc
          rw [candidates, if_pos hnil, halloc]
          simp only [physToVirt_frame hlt, pageBlocks]
        have hne' := pageBlocks_ne_nil f g
        have hne : s.candidates contents g ≠ [] := hcand.symm ▸ hne'
        simp only [hrefill, ne_eq, not_true_eq_false, if_false]
        rw [h.kmallocLocked_clean ht (by rw [Function.update_self]; exact hne') hlock hpreempt,
          Function.update_self, choice_ne_none hne', ← hcand]
        apply not_congr
        constructor
        · rintro ⟨hshort, hall⟩
          exact ⟨hsize, hshort, g, hg, hne, hall⟩
        · rintro ⟨-, hshort, g', hg', -, hall⟩
          obtain rfl : g = g' := Option.some.inj (hg.symm.trans hg')
          exact ⟨hshort, hall⟩
    · have hcand : s.candidates contents g = contents g := if_neg hnil
      simp only [if_neg hnil]
      rw [h.kmallocLocked_clean hheld hnil rfl rfl, choice_ne_none hnil, ← hcand]
      apply not_congr
      constructor
      · rintro ⟨hshort, hall⟩
        exact ⟨hsize, hshort, g, hg, hcand.symm ▸ hnil, hall⟩
      · rintro ⟨-, hshort, g', hg', -, hall⟩
        obtain rfl : g = g' := Option.some.inj (hg.symm.trans hg')
        exact ⟨hshort, hall⟩

end Ready

/-- The allocator of a machine with 13 free frames, when `mem_allocator_init` returns. -/
def boot : Allocator :=
  memAllocatorInit
    { totalFree := fun _ => 0
      lock := fun _ => 0
      lists := ⟨fun _ => none, fun _ => none⟩
      caches := fun _ => none
      magic := fun _ => 0
      bytes := fun _ => 0
      mem := bootFrames.mem
      preemptCount := 0 }

theorem boot_ready : boot.Ready fun _ => [] := by
  refine ⟨⟨?_, nofun⟩, fun _ => rfl, by decide⟩
  have hinit := Heap.Holds.initLists Nat (List.finRange numberOfMemoryBlockTypes).reverse
    (List.nodup_reverse.mpr (List.nodup_finRange _))
  rw [List.foldr_reverse] at hinit
  exact hinit.congr_used fun g => iff_of_true (by simp) trivial

theorem boot_frame : ¬ boot.mem.NoFrame := by
  rintro (h | h)
  · cases h
  · have hcount := (FrameInv.of_reachable (.init bootFrames_init)).counted
    rw [Mem.Counted, show bootFrames.mem.freeFrames = ∅ from h] at hcount
    cases hcount

/-- A block of a new page is not aligned to a page, so a request for one is in vain and
leaves the lock held. -/
theorem boot_not_clean : ¬ boot.KmallocClean 64 pgSize 0 0 := by
  obtain ⟨g, hg, -⟩ := groupOf_eq_some (show 64 ≤ maxAllocateMemorySize by decide)
  have hheld : (Ready.held boot g).Stocked fun _ => [] := boot_ready.stocked.locked
  rcases hheld.refill (g := g) rfl with
    ⟨hno, -⟩ | ⟨f, m', t, hlt, -, -, hrefill, ht, hlock, hpreempt⟩
  · exact absurd hno boot_frame
  · unfold KmallocClean
    rw [boot_ready.kmalloc_eq hg (by decide)]
    simp only [if_true, hrefill, ne_eq, not_true_eq_false, if_false]
    have hne := pageBlocks_ne_nil f g
    have hself : Function.update (fun _ => []) g (pageBlocks f g) g = pageBlocks f g :=
      Function.update_self ..
    intro hclean
    have hchoice := (boot_ready.kmallocLocked_clean ht (hself.symm ▸ hne) hlock hpreempt _ _ _ _).mp
      hclean
    rw [hself, Ready.choice_ne_none hne] at hchoice
    refine hchoice ⟨by decide, fun b hb => ?_⟩
    obtain ⟨idx, hidx, rfl⟩ := List.mem_map.mp hb
    obtain ⟨hlo, hhi⟩ := cache2block_bounds (List.mem_range.mp hidx) (pageOf f)
    have hpos := blockSize_pos g
    have hmask : sub64 (effective 64 pgSize) 1 = 0x1fffff := by decide
    rw [suitable, hmask, decide_eq_false_iff_not, Mem.and_mask_eq_zero_iff]
    rintro ⟨haligned, -⟩
    unfold pageOf kernelVmaBase pgSize at *
    omega

/-- A request without an alignment ends well. -/
theorem boot_clean : boot.KmallocClean 64 0 0 0 :=
  (boot_ready.kmallocClean_iff 64 0 0 0).mpr fun h => h.2.1 (by decide)

end Allocator

end ClayFigure
