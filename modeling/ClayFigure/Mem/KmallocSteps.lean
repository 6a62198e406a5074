/-
# What each call of the allocator keeps

One lemma for each part of `kmalloc` and `kfree`: the page that refills an empty list, the block
taken out of a list, the block put back and the page given back. From these every call keeps the
representation, and every run the promises of `kmalloc` and `kfree`.
-/

import ClayFigure.Mem.KmallocRuns

namespace ClayFigure

open ClayFigure.Math

/-- Nothing is left between two addresses. -/
def Allocator.Cleared (s : Allocator) (start size : Nat) : Prop :=
  ∀ a, start ≤ a ∧ a < start + size → s.bytes a = 0 ∧ s.magic a = 0 ∧ s.caches a = none ∧
    s.lists.next (.elem a) = none ∧ s.lists.prev (.elem a) = none

/-- What `kfree` makes of the block at `idx` of a page with `cnt` free blocks, when `lists` are the
lists with the block in its group's. -/
def Allocator.putBack (s : Allocator) (g : Group) (c idx cnt : Nat) (lists : Heap Group Nat) :
    Allocator :=
  { s with
    lists
    magic := Function.update s.magic (cache2block c g idx) (idx + numBlocks g)
    totalFree := Function.update s.totalFree g ((s.totalFree g + 1) % 2 ^ 32)
    caches := Function.update s.caches c (some ⟨g, numBlocks g, cnt + 1⟩) }

namespace BlockRep

open Allocator

variable {s : BlockState} {contents : Group → List Nat} {group : Nat → Group} {g : Group}
  {f b : Nat}

/-! ## The page that refills a list -/

/-- An empty list is given the blocks of a new page, or no frame can be had. -/
theorem refill (h : BlockRep s contents group) (hnil : contents g = []) :
    (s.alloc.mem.NoFrame ∧ s.alloc.refill g = some (.kNomem, s.alloc)) ∨
      ∃ f a, f ∉ s.pages ∧ f ∈ s.alloc.mem.freeFrames ∧
        s.alloc.refill g = some (.kSuccess, a) ∧ a.lock = s.alloc.lock ∧
        a.preemptCount = s.alloc.preemptCount ∧
        a.mem.freeFrames = s.alloc.mem.freeFrames \ {f} ∧
        BlockRep { s with alloc := a, pages := insert f s.pages }
          (Function.update contents g (pageBlocks f g)) (Function.update group f g) := by
  rcases refill_eq h.holds hnil h.stocked.free_out with
    ⟨hno, heq⟩ | ⟨f, m', lists, magic, hlt, hf, halloc, hfree, heq, hlists, hset, hkeep⟩
  · exact Or.inl ⟨hno, heq⟩
  have hnew : f ∉ s.pages := fun hmem => h.notFree hmem hf
  have hne {f' : Nat} (hf' : f' ∈ s.pages) : f' ≠ f := fun heq => hnew (heq ▸ hf')
  have hgroup {f' : Nat} (hf' : f' ∈ s.pages) : Function.update group f g f' = group f' :=
    Function.update_of_ne (hne hf') ..
  -- the new list has no part in the old pages
  have hpart {f' : Nat} (hf' : f' ∈ s.pages) (k : Group) :
      inPage f' (Function.update contents g (pageBlocks f g) k) = inPage f' (contents k) := by
    by_cases hk : k = g
    · subst hk
      rw [Function.update_self, inPage_pageBlocks hlt, if_neg (hne hf'), hnil]
      rfl
    · rw [Function.update_of_ne hk]
  have hlive : inPage f (s.live.map (·.1)) = [] := by
    refine List.filter_eq_nil_iff.mpr fun b hb hpage => ?_
    obtain ⟨c, hc, rfl⟩ := List.mem_map.mp hb
    obtain ⟨f', hf', -, hpage'⟩ := h.live c hc
    rw [decide_eq_true_eq, hpage'] at hpage
    exact hne hf' (pageOf_injective hpage)
  have hself : inPage f (pageBlocks f g) = pageBlocks f g := by
    rw [inPage_pageBlocks hlt, if_pos rfl]
  have hbase (f' : Nat) : pageOf f' ≤ pageOf f' ∧ pageOf f' < pageOf f' + pgSize :=
    ⟨le_rfl, Nat.lt_add_of_pos_right (by decide)⟩
  refine Or.inr ⟨f, _, hnew, hf, heq, rfl, rfl, hfree, ?_⟩
  refine ⟨hlists, (FrameInv.cons_iff.mp (h.frames.allocOne halloc)).1,
    Finset.forall_mem_insert .. |>.mpr ⟨h.frames.allocOne halloc, fun f' hf' => ?_⟩,
    Finset.forall_mem_insert .. |>.mpr ⟨?_, fun f' hf' => ?_⟩, fun k => ?_, fun k b hb => ?_,
    fun b hb => ?_, Finset.forall_mem_insert .. |>.mpr ⟨?_, fun f' hf' => ?_⟩,
    Finset.forall_mem_insert .. |>.mpr ⟨?_, fun f' hf' => ?_⟩⟩
  · exact (FrameInv.cons_iff.mp ((h.page f' hf').allocOne halloc)).1
  · simp only [caches_initCache, if_true, Function.update_self, hself, length_pageBlocks]
    rfl
  · have hout : ¬ (pageOf f ≤ pageOf f' ∧ pageOf f' < pageOf f + pgSize) :=
      fun hin => hne hf' (frame_eq_of_mem (hbase f') hin)
    rw [hgroup hf', hpart hf']
    simp only [caches_initCache]
    rw [if_neg fun heq => hne hf' (pageOf_injective heq), caches_memset, if_neg hout]
    exact h.header f' hf'
  · change Function.update s.alloc.totalFree g ((s.alloc.totalFree g + numBlocks g) % 2 ^ 32) k = _
    by_cases hk : k = g
    · subst hk
      have hn := numBlocks_pos k
      rw [Function.update_self, Function.update_self, h.total, hnil, length_pageBlocks,
        List.length_nil, Nat.zero_add, Nat.mod_eq_of_lt (by omega)]
    · rw [Function.update_of_ne hk, Function.update_of_ne hk]
      exact h.total k
  · by_cases hk : k = g
    · subst hk
      rw [Function.update_self] at hb
      obtain ⟨idx, hidx, rfl⟩ := mem_pageBlocks.mp hb
      exact ⟨f, Finset.mem_insert_self .., Function.update_self ..,
        block2cache_cache2block hlt hidx⟩
    · rw [Function.update_of_ne hk] at hb
      obtain ⟨f', hf', hgroup', hpage⟩ := h.free k b hb
      exact ⟨f', Finset.mem_insert_of_mem hf', (hgroup hf').trans hgroup', hpage⟩
  · obtain ⟨f', hf', hgroup', hpage⟩ := h.live b hb
    exact ⟨f', Finset.mem_insert_of_mem hf', (hgroup hf').trans hgroup', hpage⟩
  · rw [Function.update_self, Function.update_self, hself, hlive, List.append_nil]
  · rw [hgroup hf', hpart hf']
    exact h.blocks f' hf'
  · rw [Function.update_self]
    exact fun idx hidx _ => hset idx hidx
  · intro idx hidx hmem
    rw [hgroup hf'] at hidx hmem ⊢
    have hin := mem_page_of_index (f := f') hidx
    have hout : ¬ (pageOf f ≤ cache2block (pageOf f') (group f') idx ∧
        cache2block (pageOf f') (group f') idx < pageOf f + pgSize) :=
      fun hin' => hne hf' (frame_eq_of_mem ⟨hin.1.le, hin.2⟩ hin')
    have hold : cache2block (pageOf f') (group f') idx ∈ contents (group f') := by
      have hpage : cache2block (pageOf f') (group f') idx ∈ inPage f'
          (Function.update contents g (pageBlocks f g) (group f')) :=
        mem_inPage.mpr ⟨hmem, block2cache_cache2block (h.frame_lt hf') hidx⟩
      rw [hpart hf'] at hpage
      exact (mem_inPage.mp hpage).1
    exact (hkeep _ hout).trans (h.magic f' hf' idx hidx hold)

/-! ## The block taken out of a list -/

/-- A block out of the list of its group goes into use. -/
theorem take (h : BlockRep s contents group) {pre post : List Nat}
    (hsplit : contents g = pre ++ b :: post) {lists : Heap Group Nat}
    (hlists : lists.Holds (fun _ => True) (Function.update contents g (pre ++ post))) :
    ∃ a, Allocator.takeBlock { s.alloc with lists } g b = some a ∧ a.lock = s.alloc.lock ∧
      a.preemptCount = s.alloc.preemptCount ∧ a.mem = s.alloc.mem ∧
      a.Cleared b (blockSize g) ∧
      BlockRep { s with alloc := a, live := (b, g) :: s.live }
        (Function.update contents g (pre ++ post)) group := by
  have hblock : PageBlock s.pages group b g := h.exists_free (by simp [hsplit])
  have hnodup := h.holds.nodup g trivial
  rw [hsplit, List.nodup_middle] at hnodup
  have hnot := (List.nodup_cons.mp hnodup).1
  have hsub (k : Group) (x : Nat) (hx : x ∈ Function.update contents g (pre ++ post) k) :
      x ∈ contents k ∧ x ≠ b := by
    by_cases hk : k = g
    · subst hk
      rw [Function.update_self] at hx
      refine ⟨hsplit ▸ ?_, fun heq => hnot (heq ▸ hx)⟩
      exact List.mem_append.mpr ((List.mem_append.mp hx).imp_right (List.mem_cons_of_mem _))
    · rw [Function.update_of_ne hk] at hx
      exact ⟨hx, fun heq => hk (h.holds.disjoint k g trivial trivial x hx (by simp [hsplit, heq]))⟩
  -- the other free blocks lie outside of the block
  have hout (k : Group) (x : Nat) (hx : x ∈ Function.update contents g (pre ++ post) k) :
      ¬ (b ≤ x ∧ x < b + blockSize g) := by
    obtain ⟨hx, hne⟩ := hsub k x hx
    have hpos := blockSize_pos k
    rcases hblock.apart (h.exists_free hx) hne.symm with hapart | hapart <;> omega
  obtain ⟨f, hf, rfl, idx, hidx, rfl⟩ := hblock
  have hlt := h.frame_lt hf
  have hpage := block2cache_cache2block hlt hidx
  have hheader (f' : Nat) : ¬ (cache2block (pageOf f) (group f) idx ≤ pageOf f' ∧
      pageOf f' < cache2block (pageOf f) (group f) idx + blockSize (group f)) := by
    obtain ⟨hlo, hhi⟩ := cache2block_bounds hidx (pageOf f)
    have hpos := blockSize_pos (group f)
    unfold pageOf pgSize at *
    omega
  have hne {f' : Nat} (hne : f' ≠ f) : block2cache (cache2block (pageOf f) (group f) idx) ≠
      pageOf f' := fun heq => hne (pageOf_injective (heq.symm.trans hpage))
  have hpart {f' : Nat} (hf' : f' ≠ f) (k : Group) :
      inPage f' (Function.update contents (group f) (pre ++ post) k) = inPage f' (contents k) := by
    by_cases hk : k = group f
    · subst hk
      rw [Function.update_self, hsplit, inPage_append, inPage_append, inPage_cons_of_ne (hne hf')]
    · rw [Function.update_of_ne hk]
  have hlen : (inPage f (contents (group f))).length = (inPage f (pre ++ post)).length + 1 := by
    rw [hsplit, inPage_append, inPage_append, inPage_cons hpage, List.length_append,
      List.length_append, List.length_cons]
    omega
  have htake := Stocked.takeBlock_eq (s := { s.alloc with lists }) hlt hidx (h.header f hf)
  refine ⟨_, htake, rfl, rfl, rfl, fun x hx => ?_, ?_⟩
  · have hne : x ≠ pageOf f := fun heq => hheader f (heq ▸ hx)
    simp only [Function.update_of_ne hne, memset, clearLinks, if_pos hx]
    exact ⟨trivial, trivial, trivial, trivial, trivial⟩
  refine ⟨Stocked.memset_holds (s := { s.alloc with lists }) hlists hout, h.frames, h.page,
    fun f' hf' => ?_, fun k => ?_, fun k x hx => h.free k x (hsub k x hx).1,
    List.forall_mem_cons.mpr ⟨⟨f, hf, rfl, hpage⟩, h.live⟩, fun f' hf' => ?_,
    fun f' hf' i hi hx => ?_⟩
  · by_cases heq : f' = f
    · subst heq
      have hle := h.length_inPage_le hf (group f')
      simp only [Function.update_self, hlen]
      rw [sub64_of_le (Nat.le_add_left 1 _) (by unfold wordSize; omega), Nat.add_sub_cancel]
    · simp only [Function.update_of_ne fun h => heq (pageOf_injective h), caches_memset,
        if_neg (hheader f'), hpart heq]
      exact h.header f' hf'
  · have hlt := h.length_lt (group f)
    simp only
    by_cases hk : k = group f
    · subst hk
      rw [Function.update_self, Function.update_self, h.total, hsplit]
      rw [hsplit] at hlt
      simp only [List.length_append, List.length_cons] at hlt ⊢
      omega
    · rw [Function.update_of_ne hk, Function.update_of_ne hk]
      exact h.total k
  · by_cases heq : f' = f
    · subst heq
      have hold := h.blocks f' hf
      rw [hsplit, inPage_append, inPage_cons hpage] at hold
      simp only [Function.update_self, List.map_cons, inPage_cons hpage, inPage_append]
      refine List.Perm.trans ?_ hold
      rw [List.append_assoc, List.append_assoc, List.cons_append]
      exact List.perm_middle.append_left _
    · simp only [hpart heq, List.map_cons, inPage_cons_of_ne (hne heq)]
      exact h.blocks f' hf'
  · have hmem := (hsub _ _ hx).1
    simp only [magic_memset, if_neg (hout _ _ hx)]
    exact h.magic f' hf' i hi hmem

/-! ## The block put back -/

/-- Only one block in use has an address. -/
theorem erase_live (h : BlockRep s contents group) (hf : f ∈ s.pages)
    (hb : b ∈ s.live.map (·.1)) (hpage : block2cache b = pageOf f) :
    (inPage f (s.live.map (·.1))).Perm
      (b :: inPage f ((s.live.filter fun x => x.1 ≠ b).map (·.1))) := by
  have hnodup : (inPage f (s.live.map (·.1))).Nodup :=
    (List.nodup_append.mp ((h.blocks f hf).nodup_iff.mpr (nodup_pageBlocks ..))).2.1
  have herase : inPage f ((s.live.filter fun x => x.1 ≠ b).map (·.1)) =
      (inPage f (s.live.map (·.1))).erase b := by
    rw [hnodup.erase_eq_filter, inPage, inPage, List.filter_filter, List.filter_map,
      List.filter_map, List.filter_filter]
    congr 1
    refine List.filter_congr fun x _ => ?_
    simp only [Function.comp_apply, ne_eq, decide_not, bne]
    rw [Bool.and_comm]
    rfl
  rw [herase]
  exact List.perm_cons_erase (mem_inPage.mpr ⟨hb, hpage⟩)

/-- A block in use goes back into the list of its group. -/
theorem put (h : BlockRep s contents group) (hf : f ∈ s.pages) {idx : Nat}
    (hidx : idx < numBlocks (group f))
    (hb : (cache2block (pageOf f) (group f) idx, group f) ∈ s.live) :
    ∃ lists, s.alloc.lists.listAppend (group f)
        (.elem (cache2block (pageOf f) (group f) idx)) = some lists ∧
      BlockRep
        { s with
          alloc := s.alloc.putBack (group f) (pageOf f) idx
            (inPage f (contents (group f))).length lists
          live := s.live.filter fun x => x.1 ≠ cache2block (pageOf f) (group f) idx }
        (Function.update contents (group f)
          (contents (group f) ++ [cache2block (pageOf f) (group f) idx])) group := by
  have hlt := h.frame_lt hf
  have hpage := block2cache_cache2block hlt hidx
  set b := cache2block (pageOf f) (group f) idx with hbdef
  have hlive : b ∈ s.live.map (·.1) := List.mem_map_of_mem hb
  have hloose : Heap.Loose (fun _ => True) contents b :=
    fun k _ hmem => h.not_live_of_free hmem hlive
  have hne {f' : Nat} (hne : f' ≠ f) : block2cache b ≠ pageOf f' :=
    fun heq => hne (pageOf_injective (heq.symm.trans hpage))
  have hpart {f' : Nat} (hf' : f' ≠ f) (k : Group) :
      inPage f' (Function.update contents (group f) (contents (group f) ++ [b]) k) =
        inPage f' (contents k) := by
    by_cases hk : k = group f
    · subst hk
      rw [Function.update_self, inPage_append, inPage_cons_of_ne (hne hf')]
      exact List.append_nil _
    · rw [Function.update_of_ne hk]
  have hself : inPage f (contents (group f) ++ [b]) = inPage f (contents (group f)) ++ [b] := by
    rw [inPage_append, inPage_cons hpage]
    rfl
  have hsub (k : Group) (x : Nat)
      (hx : x ∈ Function.update contents (group f) (contents (group f) ++ [b]) k) :
      x ∈ contents k ∨ x = b ∧ k = group f := by
    by_cases hk : k = group f
    · subst hk
      rw [Function.update_self, List.mem_append, List.mem_singleton] at hx
      exact hx.imp_right fun heq => ⟨heq, rfl⟩
    · rw [Function.update_of_ne hk] at hx
      exact Or.inl hx
  obtain ⟨lists, happend, hlists⟩ := h.holds.listAppend (l := group f) trivial hloose
  refine ⟨lists, happend, hlists, h.frames, h.page, fun f' hf' => ?_, fun k => ?_,
    fun k x hx => ?_, fun x hx => h.live x (List.mem_filter.mp hx).1, fun f' hf' => ?_,
    fun f' hf' i hi hx => ?_⟩
  · by_cases heq : f' = f
    · subst heq
      simp only [putBack, Function.update_self, hself, List.length_append, List.length_singleton]
    · simp only [putBack, Function.update_of_ne fun h => heq (pageOf_injective h), hpart heq]
      exact h.header f' hf'
  · have hlt := h.length_lt (group f)
    simp only [putBack]
    by_cases hk : k = group f
    · subst hk
      rw [Function.update_self, Function.update_self, h.total, List.length_append,
        List.length_singleton, Nat.mod_eq_of_lt (by omega)]
    · rw [Function.update_of_ne hk, Function.update_of_ne hk]
      exact h.total k
  · rcases hsub k x hx with hx | ⟨rfl, rfl⟩
    · exact h.free k x hx
    · exact ⟨f, hf, rfl, hpage⟩
  · by_cases heq : f' = f
    · subst heq
      simp only [Function.update_self, hself]
      refine List.Perm.trans ?_ (h.blocks f' hf)
      rw [List.append_assoc]
      exact (h.erase_live hf hlive hpage).symm.append_left _
    · have hkeep : inPage f' ((s.live.filter fun x => x.1 ≠ b).map (·.1)) =
          inPage f' (s.live.map (·.1)) := by
        rw [inPage, inPage, List.filter_map, List.filter_map, List.filter_filter]
        congr 1
        refine List.filter_congr fun x _ => ?_
        by_cases hx : x.1 = b
        · simp [hx, hne heq]
        · simp [hx]
      simp only [hpart heq, hkeep]
      exact h.blocks f' hf'
  · by_cases hx' : cache2block (pageOf f') (group f') i = b
    · obtain rfl : f' = f :=
        pageOf_injective ((block2cache_cache2block (h.frame_lt hf') hi).symm.trans (hx' ▸ hpage))
      rw [hx', cache2block_injective (hx'.trans hbdef)]
      exact Function.update_self ..
    · simp only [putBack, ← hbdef, Function.update_of_ne hx']
      exact h.magic f' hf' i hi ((hsub _ _ hx).resolve_right fun h => hx' h.1)

/-! ## The page given back -/

end BlockRep

namespace Allocator

variable {s : Allocator} {contents : Group → List Nat} {g : Group} {f : Nat}

theorem virtToPhys_pageOf (hf : f < 16384) : virtToPhys (pageOf f) = f * pgSize := by
  have hlt := pageOf_lt hf
  have hbase : kernelVmaBase ≤ pageOf f := Nat.le_add_right _ _
  rw [virtToPhys, sub64_of_le hbase (by omega), pageOf, Nat.add_sub_cancel_left]

/-- The loop that takes the blocks of a page out of the list. -/
theorem unlinkBlocks {c : Nat} (hholds : s.lists.Holds (fun _ => True) contents) (n : Nat)
    (hfree : ∀ idx < n, cache2block c g idx ∈ contents g)
    (hmagic : ∀ idx < n, s.magic (cache2block c g idx) = idx + numBlocks g) :
    ∃ lists, (List.range n).foldlM (unlinkBlock c g (numBlocks g)) s = some { s with lists } ∧
      lists.Holds (fun _ => True) (Function.update contents g
        ((contents g).filter fun b => b ∉ (List.range n).map (cache2block c g))) := by
  induction n with
  | zero => exact ⟨s.lists, rfl, by simpa using hholds⟩
  | succ n ih =>
      obtain ⟨lists, hfold, hlists⟩ := ih (fun idx hidx => hfree idx (Nat.lt_succ_of_lt hidx))
        fun idx hidx => hmagic idx (Nat.lt_succ_of_lt hidx)
      set rest := (contents g).filter fun b => b ∉ (List.range n).map (cache2block c g) with hrest
      have hmem : cache2block c g n ∈ rest := by
        refine List.mem_filter.mpr ⟨hfree n (Nat.lt_succ_self n), ?_⟩
        rw [decide_eq_true_eq]
        intro hold
        obtain ⟨idx, hidx, heq⟩ := List.mem_map.mp hold
        exact absurd (cache2block_injective heq) (List.mem_range.mp hidx).ne
      obtain ⟨pre, post, hsplit⟩ := List.append_of_mem hmem
      have hnodup : rest.Nodup := (hholds.nodup g trivial).filter _
      have hleft : pre ++ post = (contents g).filter fun b =>
          b ∉ (List.range (n + 1)).map (cache2block c g) := by
        have herase : rest.erase (cache2block c g n) = pre ++ post := by
          rw [hsplit, List.nodup_middle] at hnodup
          have hnot := (List.nodup_cons.mp hnodup).1
          rw [hsplit, List.erase_append_right _ fun h => hnot (List.mem_append_left _ h),
            List.erase_cons_head]
        rw [← herase, hnodup.erase_eq_filter, hrest, List.filter_filter]
        refine List.filter_congr fun b _ => ?_
        rw [Bool.eq_iff_iff, List.range_succ, List.map_append, List.map_singleton]
        simp only [List.mem_append, List.mem_singleton, not_or, Bool.and_eq_true, bne_iff_ne,
          decide_eq_true_eq, and_comm]
      obtain ⟨lists', hremove, hlists'⟩ := hlists.listRemove (l := g) trivial pre post
        (by rw [Function.update_self]; exact hsplit)
      refine ⟨lists', ?_, ?_⟩
      · have hn := hmagic n (Nat.lt_succ_self n)
        simp only [List.range_succ, List.foldlM_append, hfold, List.foldlM_cons, List.foldlM_nil,
          unlinkBlock, hn, hremove, ne_eq, not_true_eq_false, if_false, Option.map_some,
          Option.bind_eq_bind, Option.bind_some, Option.pure_def]
      · rw [Function.update_idem, hleft] at hlists'
        exact hlists'

end Allocator

namespace BlockRep

open Allocator

variable {s : BlockState} {contents : Group → List Nat} {group : Nat → Group} {g : Group}
  {f b : Nat}

/-- A page without a block in use goes back to the frame allocator. -/
theorem release (h : BlockRep s contents group) (hf : f ∈ s.pages)
    (hall : inPage f (s.live.map (·.1)) = []) :
    ∃ a, s.alloc.releasePage (group f) (pageOf f) (numBlocks (group f)) = some a ∧
      a.lock = s.alloc.lock ∧ a.preemptCount = s.alloc.preemptCount ∧
      a.mem.freeFrames = insert f s.alloc.mem.freeFrames ∧
      BlockRep { s with alloc := a, pages := s.pages.erase f }
        (Function.update contents (group f)
          ((contents (group f)).filter fun b => block2cache b ≠ pageOf f)) group := by
  have hlt := h.frame_lt hf
  have hblocks := h.blocks f hf
  rw [hall, List.append_nil] at hblocks
  have hfree (idx : Nat) (hidx : idx < numBlocks (group f)) :
      cache2block (pageOf f) (group f) idx ∈ contents (group f) :=
    (mem_inPage.mp (hblocks.mem_iff.mpr (mem_pageBlocks.mpr ⟨idx, hidx, rfl⟩))).1
  obtain ⟨lists, hfold, hlists⟩ := unlinkBlocks h.holds (numBlocks (group f)) hfree
    fun idx hidx => h.magic f hf idx hidx (hfree idx hidx)
  obtain ⟨m', hm', hfrees, hframes⟩ := (h.page f hf).freeOne
  have hleft : ((contents (group f)).filter fun b => b ∉ pageBlocks f (group f)) =
      (contents (group f)).filter fun b => block2cache b ≠ pageOf f := by
    refine List.filter_congr fun b hb => ?_
    rw [decide_eq_decide, not_iff_not, ← hblocks.mem_iff, mem_inPage]
    exact and_iff_right hb
  set rest := (contents (group f)).filter fun b => block2cache b ≠ pageOf f with hrest
  have hlen : (contents (group f)).length = rest.length + numBlocks (group f) := by
    have hperm := List.filter_append_perm (fun b => decide (block2cache b = pageOf f))
      (contents (group f))
    have hcount := hperm.length_eq
    have hn := hblocks.length_eq
    rw [length_pageBlocks] at hn
    rw [List.length_append] at hcount
    simp only [hrest, ne_eq, decide_not, inPage] at hcount hn ⊢
    omega
  have hsub (k : Group) (x : Nat) (hx : x ∈ Function.update contents (group f) rest k) :
      x ∈ contents k ∧ block2cache x ≠ pageOf f := by
    by_cases hk : k = group f
    · subst hk
      rw [Function.update_self] at hx
      exact ⟨(List.mem_filter.mp hx).1, by simpa using (List.mem_filter.mp hx).2⟩
    · rw [Function.update_of_ne hk] at hx
      refine ⟨hx, fun hpage => hk ?_⟩
      obtain ⟨f', -, rfl, hpage'⟩ := h.free k x hx
      rw [pageOf_injective (hpage'.symm.trans hpage)]
  have hpart {f' : Nat} (hf' : f' ≠ f) (k : Group) :
      inPage f' (Function.update contents (group f) rest k) = inPage f' (contents k) := by
    by_cases hk : k = group f
    · subst hk
      rw [Function.update_self, hrest, inPage, inPage, List.filter_filter]
      refine List.filter_congr fun b _ => ?_
      by_cases hb : block2cache b = pageOf f'
      · have hne : pageOf f' ≠ pageOf f := fun heq => hf' (pageOf_injective heq)
        simp [hb, hne]
      · simp [hb]
    · rw [Function.update_of_ne hk]
  have hrelease : s.alloc.releasePage (group f) (pageOf f) (numBlocks (group f)) =
      some { s.alloc with
        lists
        totalFree := Function.update s.alloc.totalFree (group f)
          ((s.alloc.totalFree (group f) + 2 ^ 32 - numBlocks (group f)) % 2 ^ 32)
        mem := m' } := by
    unfold releasePage
    rw [hfold, Option.bind_eq_bind, Option.bind_some, virtToPhys_pageOf hlt, hm',
      Option.bind_eq_bind, Option.bind_some, Option.pure_def]
  rw [show (List.range (numBlocks (group f))).map (cache2block (pageOf f) (group f)) =
    pageBlocks f (group f) from rfl, hleft] at hlists
  refine ⟨_, hrelease, rfl, rfl, hfrees, hlists, hframes, fun f' hf' => ?_, fun f' hf' => ?_,
    fun k => ?_, fun k x hx => ?_, fun x hx => ?_, fun f' hf' => ?_, fun f' hf' i hi hx => ?_⟩
  · obtain ⟨hne, hf'⟩ := Finset.mem_erase.mp hf'
    obtain ⟨m'', hm'', -, hframes'⟩ :=
      ((h.page f hf).cons_cons (h.page f' hf') hne.symm).freeOne
    rwa [Option.some.inj (hm'.symm.trans hm'')]
  · obtain ⟨hne, hf'⟩ := Finset.mem_erase.mp hf'
    simp only [hpart hne]
    exact h.header f' hf'
  · have hlt := h.length_lt (group f)
    simp only
    by_cases hk : k = group f
    · subst hk
      rw [Function.update_self, Function.update_self, h.total]
      omega
    · rw [Function.update_of_ne hk, Function.update_of_ne hk]
      exact h.total k
  · obtain ⟨hx, hne⟩ := hsub k x hx
    obtain ⟨f', hf', hgroup, hpage⟩ := h.free k x hx
    exact ⟨f', Finset.mem_erase.mpr ⟨fun heq => hne (heq ▸ hpage), hf'⟩, hgroup, hpage⟩
  · obtain ⟨f', hf', hgroup, hpage⟩ := h.live x hx
    refine ⟨f', Finset.mem_erase.mpr ⟨fun heq => ?_, hf'⟩, hgroup, hpage⟩
    have hin : x.1 ∈ inPage f (s.live.map (·.1)) :=
      mem_inPage.mpr ⟨List.mem_map_of_mem hx, heq ▸ hpage⟩
    rw [hall] at hin
    exact absurd hin List.not_mem_nil
  · obtain ⟨hne, hf'⟩ := Finset.mem_erase.mp hf'
    simp only [hpart hne]
    exact h.blocks f' hf'
  · exact h.magic f' (Finset.mem_erase.mp hf').2 i hi (hsub _ _ hx).1

end BlockRep

end ClayFigure
