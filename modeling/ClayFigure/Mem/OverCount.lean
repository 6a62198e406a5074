/-
# A counter that is ahead of the bitmap

The counter of free frames is read only to refuse a request early. A counter that is ahead by some
number changes nothing in what the allocators give out: a request it lets through is refused by the
search of the bitmap. It stays ahead by that number.
-/

import ClayFigure.Math.Blind
import ClayFigure.Mem.TableOwner

namespace ClayFigure

open ClayFigure.Math

/-! ## Frames -/

namespace Mem

variable {m : Mem} {k n addr : Nat}

/-- The counter is ahead by `k`. -/
def ahead (m : Mem) (k : Nat) : Mem := { m with freePages := add64 m.freePages k }

theorem freeFrames_ahead (m : Mem) (k : Nat) : (m.ahead k).freeFrames = m.freeFrames := rfl

theorem freePages_ahead (hm : m.Counted) (hk : k < 2 ^ 63) :
    (m.ahead k).freePages = m.freeFrames.card + k := by
  have hcap := m.btmpBytesLen_le
  have hcard := m.card_freeFrames_le
  rw [Counted] at hm
  rw [← hm]
  exact add64_of_lt (by unfold wordSize; omega)

theorem ahead_zero (hm : m.Counted) : m.ahead 0 = m := by
  have hcount : add64 m.freePages 0 = m.freePages :=
    (freePages_ahead hm (by decide)).trans hm.symm
  unfold ahead
  rw [hcount]

theorem add64_right_comm (a b c : Nat) : add64 (add64 a b) c = add64 (add64 a c) b := by
  unfold add64
  rw [Nat.mod_add_mod, Nat.mod_add_mod, Nat.add_right_comm]

theorem freePhysicalPage_ahead (m : Mem) (k addr n : Nat) :
    (m.ahead k).freePhysicalPage addr n = (m.freePhysicalPage addr n).map (ahead · k) := by
  unfold freePhysicalPage
  split
  · rfl
  · split
    · rfl
    · rw [Option.map_some]
      unfold ahead
      simp only [add64_right_comm]

/-- What a request gets does not depend on how far the counter is ahead. -/
theorem allocPhysicalPage_ahead (hm : m.Counted) (hk : k < 2 ^ 63) (hn : 0 < n) :
    ∃ status addr m', m.allocPhysicalPage n = some ⟨status, addr, m'⟩ ∧
      ((status = .kSuccess ∧ (m.ahead k).allocPhysicalPage n = some ⟨status, addr, m'.ahead k⟩) ∨
        (status = .kNomem ∧
          ∃ addr', (m.ahead k).allocPhysicalPage n = some ⟨status, addr', m'.ahead k⟩)) := by
  have hcap := m.btmpBytesLen_le
  have hcard := m.card_freeFrames_le
  have hfp : m.freePages ≤ 16384 := by
    rw [Counted] at hm
    omega
  have hcount : (m.ahead k).freePages = m.freePages + k := hm ▸ freePages_ahead hm hk
  unfold allocPhysicalPage
  rw [if_neg hn.ne', if_neg hn.ne', hcount]
  by_cases hfew : m.freePages < n
  · -- the search refuses what the counter lets through
    refine ⟨.kNomem, some 0, m, if_pos hfew, Or.inr ⟨rfl, ?_⟩⟩
    by_cases hfew' : m.freePages + k < n
    · exact ⟨some 0, if_pos hfew'⟩
    · rw [if_neg hfew']
      rcases (m.ahead k).allocPhysicalPageSub_spec hn with ⟨index, hfirst, -⟩ | ⟨heq, -⟩
      · have hle := hfirst.run.card_le
        rw [freeFrames_ahead, ← hm] at hle
        omega
      · exact ⟨none, congrArg some heq⟩
  · rw [if_neg hfew, if_neg (by omega)]
    unfold allocPhysicalPageSub
    have hbitmap : (m.ahead k).pageBitmap = m.pageBitmap := rfl
    rw [hbitmap]
    cases m.pageBitmap.bitmapAlloc 1 n with
    | error e => exact ⟨.kNomem, none, m, rfl, Or.inr ⟨rfl, none, rfl⟩⟩
    | ok index =>
        refine ⟨.kSuccess, some (index * pgSize), _, rfl, Or.inl ⟨rfl, ?_⟩⟩
        have hsub : sub64 (m.freePages + k) n = add64 (sub64 m.freePages n) k := by
          rw [sub64_of_le (by omega) (by unfold wordSize; omega),
            sub64_of_le (by omega) (by unfold wordSize; omega),
            add64_of_lt (by unfold wordSize; omega)]
          omega
        simp only [hcount, hsub]
        rfl

/-- The frame at `f` is put among the free ones once more. -/
def mark (f : Nat) (m : Mem) : Mem :=
  { m with
    pageBitmap := m.pageBitmap.setBits (f / pgSize) (loopCount (f / pgSize) 1) 1
    freePages := add64 m.freePages 1 }

theorem freePhysicalPage_eq_mark {f : Nat} (hpos : 0 < f) (halign : f % pgSize = 0) (m : Mem) :
    m.freePhysicalPage f 1 = some (m.mark f) := by
  have haligned : ¬ (f = 0 ∨ f &&& 0x1fffff ≠ 0) := by
    rw [not_or, not_not, and_mask_eq_zero_iff]
    exact ⟨hpos.ne', halign⟩
  rw [freePhysicalPage, if_neg Nat.one_ne_zero, if_neg haligned]
  rfl

/-- It does not matter in which order bits are set. -/
theorem setBits_comm (b : Bitmap pageBitmapBytesLen) (i n j k : Nat) :
    (b.setBits i n 1).setBits j k 1 = (b.setBits j k 1).setBits i n 1 := by
  refine Bitmap.ext_whole (by simp) fun x => ?_
  simp only [Bitmap.hasBit_whole_setBits _ _ _ (Or.inr rfl), Bitmap.setBits_btmpBytesLen]
  split_ifs <;> simp

theorem freePhysicalPage_mark (m : Mem) (f addr n : Nat) :
    (m.mark f).freePhysicalPage addr n = (m.freePhysicalPage addr n).map (mark f) := by
  unfold freePhysicalPage
  split
  · rfl
  · split
    · rfl
    · rw [Option.map_some]
      unfold mark
      simp only [add64_right_comm, setBits_comm]

/-- A frame that is free is counted once more, and nothing else changes. -/
theorem mark_of_mem {f : Nat} (hf : f / pgSize ∈ m.freeFrames) : m.mark f = m.ahead 1 := by
  rw [freeFrames, Bitmap.mem_freeBits, Bitmap.hasBit_whole] at hf
  have hset : m.pageBitmap.setBits (f / pgSize) (loopCount (f / pgSize) 1) 1 = m.pageBitmap := by
    have hcap := m.btmpBytesLen_le
    rw [loopCount_of_lt (by unfold wordSize; omega)]
    refine Bitmap.ext_whole (by simp) fun x => ?_
    rw [Bitmap.hasBit_whole_setBits _ _ _ (Or.inr rfl)]
    split
    · next h =>
        obtain rfl : x = f / pgSize := by omega
        exact iff_of_true rfl hf.2
    · rfl
  unfold mark ahead
  rw [hset]

theorem mem_freeFrames_mark {f x : Nat} (hlt : f < wordSize) (hne : x ≠ f / pgSize) :
    x ∈ (m.mark f).freeFrames ↔ x ∈ m.freeFrames := by
  have hsmall : f / pgSize + 1 < wordSize := by
    unfold pgSize wordSize at *
    omega
  rw [freeFrames, freeFrames, Bitmap.mem_freeBits, Bitmap.mem_freeBits, mark,
    loopCount_of_lt hsmall, Bitmap.hasBit_setBits _ _ _ (Or.inr rfl), if_neg (by omega)]

end Mem

/-! ## Blocks -/

namespace Allocator

/-- The frame allocator is changed. -/
def onMem (φ : Mem → Mem) (s : Allocator) : Allocator := { s with mem := φ s.mem }

section Blind

variable {φ : Mem → Mem} {s : Allocator} {g : Group} {c b n idx : Nat}

theorem addBlock_blind : Blind (fun _ => True) (onMem φ) fun s => addBlock c s idx := by
  intro s _
  refine ⟨?_, fun _ _ => trivial⟩
  unfold addBlock
  have hcaches : (s.onMem φ).caches = s.caches := rfl
  have hlists : (s.onMem φ).lists = s.lists := rfl
  simp only [hcaches, hlists]
  cases s.caches c with
  | none => rfl
  | some cache =>
      simp only [Option.bind_eq_bind, Option.bind_some]
      cases s.lists.listAppend cache.group (.elem (cache2block c cache.group idx)) <;> rfl

theorem unlinkBlock_blind : Blind (fun _ => True) (onMem φ) fun s => unlinkBlock c g n s idx := by
  intro s _
  refine ⟨?_, fun _ _ => trivial⟩
  unfold unlinkBlock
  have hmagic : (s.onMem φ).magic = s.magic := rfl
  have hlists : (s.onMem φ).lists = s.lists := rfl
  simp only [hmagic, hlists]
  split
  · rfl
  · cases s.lists.listRemove (.elem (cache2block c g idx)) <;> rfl

theorem releasePage_blind
    (hφ : ∀ m a, (φ m).freePhysicalPage a 1 = (m.freePhysicalPage a 1).map φ) :
    Blind (fun _ => True) (onMem φ) fun s => s.releasePage g c n := by
  refine Blind.bind (.foldlM fun _ _ => unlinkBlock_blind) fun s _ => ⟨?_, fun _ _ => trivial⟩
  change ((φ s.mem).freePhysicalPage (virtToPhys c) 1).bind _ = _
  rw [hφ]
  cases s.mem.freePhysicalPage (virtToPhys c) 1 <;> rfl

/-- `kfree` does not see a change that releases of frames do not see. -/
theorem kfree_onMem
    (hφ : ∀ m a, (φ m).freePhysicalPage a 1 = (m.freePhysicalPage a 1).map φ) (s : Allocator)
    (b : Nat) : (s.onMem φ).kfree b = (s.kfree b).map (onMem φ) := by
  unfold kfree
  split
  · rfl
  · have hcaches : (s.onMem φ).caches = s.caches := rfl
    simp only [hcaches]
    cases s.caches (block2cache b) with
    | none => rfl
    | some cache =>
        simp only [Option.bind_eq_bind, Option.bind_some]
        split
        · rfl
        · unfold spinlockLock
          have hlock : (s.onMem φ).lock = s.lock := rfl
          have hlists : (s.onMem φ).lists = s.lists := rfl
          simp only [hlock, hlists]
          split
          · simp only [Option.bind_some]
            cases s.lists.listAppend cache.group (.elem b) with
            | none => rfl
            | some lists =>
                simp only [Option.bind_some]
                split
                · let t : Allocator := { s with
                    magic := Function.update s.magic b
                      (blockIndex (block2cache b) cache.group b + cache.numberOfBlocks)
                    lock := Function.update s.lock cache.group 0
                    preemptCount := add64 s.preemptCount 1
                    lists
                    totalFree := Function.update s.totalFree cache.group
                      ((s.totalFree cache.group + 1) % 2 ^ 32)
                    caches := Function.update s.caches (block2cache b)
                      (some { cache with cnt := add64 cache.cnt 1 }) }
                  have hrelease := (releasePage_blind hφ (g := cache.group) (c := block2cache b)
                    (n := cache.numberOfBlocks) t trivial).1
                  change ((t.onMem φ).releasePage _ _ _).bind _ =
                    Option.map _ ((t.releasePage _ _ _).bind _)
                  simp only at hrelease
                  rw [hrelease]
                  cases t.releasePage cache.group (block2cache b) cache.numberOfBlocks <;> rfl
                · rfl
          · rfl

theorem findFrom_onMem (s : Allocator) (g : Group) (size alignment boundary fuel : Nat)
    (node : Node Group Nat) : (s.onMem φ).findFrom g size alignment boundary fuel node =
      s.findFrom g size alignment boundary fuel node := by
  induction fuel generalizing node with
  | zero => rfl
  | succ fuel ih =>
      unfold findFrom
      simp only [ih]
      rfl

theorem kmallocFindBlock_onMem (s : Allocator) (g : Group) (size alignment boundary : Nat) :
    (s.onMem φ).kmallocFindBlock g size alignment boundary =
      (s.kmallocFindBlock g size alignment boundary).map fun r => (r.1, r.2.onMem φ) := by
  unfold kmallocFindBlock
  have hlists : (s.onMem φ).lists = s.lists := rfl
  simp only [hlists, findFrom_onMem]
  cases s.lists.next (.head g) with
  | none => rfl
  | some node =>
      simp only [Option.bind_eq_bind, Option.bind_some]
      cases s.lists.next node with
      | none => rfl
      | some next =>
          simp only [Option.bind_some]
          split
          · rfl
          · have hremove (b : Nat) : (s.lists.listRemove (.elem b)).map (fun lists =>
                  (some b, { s.onMem φ with lists })) =
                ((s.lists.listRemove (.elem b)).map fun lists => (some b, { s with lists })).map
                  fun r => (r.1, r.2.onMem φ) := by
              cases s.lists.listRemove (.elem b) <;> rfl
            split
            · split
              · exact hremove _
              · rfl
            · cases s.findFrom g size alignment boundary wordSize node with
              | none => rfl
              | some found =>
                  cases found with
                  | none => rfl
                  | some b => exact hremove b

theorem takeBlock_onMem (s : Allocator) (g : Group) (b : Nat) :
    (s.onMem φ).takeBlock g b = (s.takeBlock g b).map (onMem φ) := by
  unfold takeBlock
  have hcaches : ((s.onMem φ).memset b (blockSize g)).caches = (s.memset b (blockSize g)).caches :=
    rfl
  simp only [hcaches]
  cases (s.memset b (blockSize g)).caches (block2cache b) <;> rfl

end Blind

section Ahead

variable {s : Allocator} {g : Group} {k : Nat}

theorem refill_ahead (hm : s.mem.Counted) (hk : k < 2 ^ 63) :
    (s.onMem (Mem.ahead · k)).refill g =
      (s.refill g).map fun r => (r.1, r.2.onMem (Mem.ahead · k)) := by
  obtain ⟨status, addr, m, heq, hout⟩ := Mem.allocPhysicalPage_ahead hm hk Nat.one_pos
  unfold refill
  have hmem : (s.onMem (Mem.ahead · k)).mem = s.mem.ahead k := rfl
  rw [heq, hmem]
  rcases hout with ⟨rfl, heq'⟩ | ⟨rfl, addr', heq'⟩
  · rw [heq']
    cases addr with
    | none => rfl
    | some addr =>
        simp only
        generalize physToVirt addr = c
        have hbody (i : Nat) (_ : i ∈ List.range (pgSize / blockSize g - 1)) :
            Blind (fun _ => True) (onMem (Mem.ahead · k)) fun s => addBlock c s i := addBlock_blind
        have hblocks := (Blind.foldlM hbody (initCache { s with mem := m } g c) trivial).1
        have hinit : initCache { s.onMem (Mem.ahead · k) with mem := m.ahead k } g c =
            (initCache { s with mem := m } g c).onMem (Mem.ahead · k) := rfl
        simp only at hblocks
        rw [hinit, hblocks, Option.map_map, Option.map_map]
        rfl
  · rw [heq']
    cases addr <;> cases addr' <;> rfl

theorem spinlockLock_onMem (φ : Mem → Mem) (s : Allocator) (g : Group) :
    (s.onMem φ).spinlockLock g = (s.spinlockLock g).map (onMem φ) := by
  unfold spinlockLock
  have hlock : (s.onMem φ).lock = s.lock := rfl
  rw [hlock]
  split <;> rfl

/-- What `kmalloc` does once it has looked for blocks in a new page. -/
def grant (g : Group) (size alignment boundary addr : Nat) (r : Status × Allocator) :
    Option (Status × Nat × Allocator) := do
  let (status, s) := r
  if status ≠ .kSuccess then some (status, addr, s.spinlockUnlock g)
  else
    let (b, s) ← s.kmallocFindBlock g size alignment boundary
    match b with
    | none => some (.kNotFound, addr, s)
    | some b => (s.takeBlock g b).map fun s => (.kSuccess, b, s.spinlockUnlock g)

theorem grant_onMem (φ : Mem → Mem) (g : Group) (size alignment boundary addr : Nat)
    (r : Status × Allocator) : grant g size alignment boundary addr (r.1, r.2.onMem φ) =
      (grant g size alignment boundary addr r).map fun r => (r.1, r.2.1, r.2.2.onMem φ) := by
  unfold grant
  simp only
  split
  · rfl
  · rw [kmallocFindBlock_onMem]
    cases r.2.kmallocFindBlock g size alignment boundary with
    | none => rfl
    | some r =>
        simp only [Option.map_some, Option.bind_eq_bind, Option.bind_some]
        cases r.1 with
        | none => rfl
        | some b =>
            simp only [takeBlock_onMem]
            cases r.2.takeBlock g b <;> rfl

/-- What `kmalloc` gives does not depend on how far the counter is ahead. -/
theorem kmalloc_ahead (hm : s.mem.Counted) (hk : k < 2 ^ 63) (size alignment boundary addr : Nat) :
    (s.onMem (Mem.ahead · k)).kmalloc size alignment boundary addr =
      (s.kmalloc size alignment boundary addr).map fun r =>
        (r.1, r.2.1, r.2.2.onMem (Mem.ahead · k)) := by
  unfold kmalloc
  simp only
  split
  · rfl
  · cases groupOf size with
    | none => rfl
    | some g =>
        simp only [Option.bind_eq_bind, Option.bind_some, spinlockLock_onMem]
        cases hu : s.spinlockLock g with
        | none => rfl
        | some u =>
            have hmem : u.mem.Counted := by
              unfold spinlockLock at hu
              split at hu
              · obtain rfl := Option.some.inj hu
                exact hm
              · cases hu
            have hlists : (u.onMem (Mem.ahead · k)).lists = u.lists := rfl
            have hgrant := grant_onMem (Mem.ahead · k) g size
              (if alignment < size then size else alignment) boundary addr
            simp only [Option.map_some, Option.bind_some, hlists]
            split
            · rw [refill_ahead hmem hk]
              cases u.refill g with
              | none => rfl
              | some r => exact hgrant r
            · exact hgrant (.kSuccess, u)

end Ahead

end Allocator

/-! ## Releases -/

namespace BlockState

/-- The counter of free frames is ahead by `k`. -/
def ahead (s : BlockState) (k : Nat) : BlockState :=
  { s with alloc := s.alloc.onMem (Mem.ahead · k) }

/-- The frame at `f` is given back, whether it is held or not. -/
def mark (f : Nat) (s : BlockState) : BlockState :=
  { s with
    alloc := s.alloc.onMem (Mem.mark f)
    others := s.others.erase (f, 1) }

/-- A change that releases do not see. -/
structure Unnoticed (P : BlockState → Prop) (φ : BlockState → BlockState) : Prop where
  load : ∀ s a, (φ s).load a = s.load a
  kfree : ∀ b, Blind P φ fun s => s.kfree b
  freePhysicalPage : ∀ a, Blind P φ fun s => s.freePhysicalPage a 1

namespace Unnoticed

variable {P : BlockState → Prop} {φ : BlockState → BlockState}

/-- A pass over an entry. -/
theorem entry (h : Unnoticed P φ) {F : BlockState → Nat → Option BlockState}
    (hF : ∀ next, Blind P φ fun s => F s next) (a : Nat) :
    Blind P φ fun s =>
      if s.load a &&& pgP ≠ 0 then F s (s.load a &&& entryMask) else some s := by
  refine .ite (fun s => by rw [h.load]) (.read (fun s => ?_) hF) .pure
  rw [h.load]

/-- The entries of a table, and the table. -/
theorem table (h : Unnoticed P φ) {body : BlockState → Nat → Option BlockState}
    (hbody : ∀ i, Blind P φ fun s => body s i) (is : List Nat) (v : Nat) :
    Blind P φ fun s => is.foldlM body s >>= fun s => s.kfree v :=
  .bind (.foldlM fun i _ => hbody i) (h.kfree v)

theorem freePdt (h : Unnoticed P φ) (pdt : Nat) : Blind P φ fun s => s.freePdt pdt := by
  have hbody (i : Nat) : Blind P φ fun s => freePde (physToVirt pdt) s i :=
    h.entry h.freePhysicalPage _
  exact h.table hbody (List.range 512) (physToVirt pdt)

theorem freePdpt (h : Unnoticed P φ) (pdpt : Nat) : Blind P φ fun s => s.freePdpt pdpt := by
  have hbody (i : Nat) : Blind P φ fun s => freePdpte (physToVirt pdpt) s i :=
    h.entry h.freePdt _
  exact h.table hbody (List.range 512) (physToVirt pdpt)

/-- `free_page_table` does not see it either. -/
theorem freePageTable (h : Unnoticed P φ) (pml4t : Nat) :
    Blind P φ fun s => s.freePageTable pml4t := by
  have hbody (i : Nat) : Blind P φ fun s => freePml4e (physToVirt pml4t) s i :=
    h.entry h.freePdpt _
  exact h.table hbody (List.range 256) (physToVirt pml4t)

end Unnoticed

variable {s t : BlockState} {f : Nat} {m m' : Mem} {pages : Finset Nat}

theorem unnoticed_ahead (k : Nat) : Unnoticed (fun _ => True) (ahead · k) := by
  refine ⟨fun _ _ => rfl, fun b s _ => ⟨?_, fun _ _ => trivial⟩,
    fun a s _ => ⟨?_, fun _ _ => trivial⟩⟩
  · change ((s.alloc.onMem (Mem.ahead · k)).kfree b).bind _ = _
    rw [Allocator.kfree_onMem fun m a => Mem.freePhysicalPage_ahead m k a 1]
    simp only [BlockState.kfree, blockStep]
    cases s.alloc.kfree b <;> rfl
  · change ((s.alloc.mem.ahead k).freePhysicalPage a 1).bind _ = _
    rw [Mem.freePhysicalPage_ahead]
    simp only [BlockState.freePhysicalPage]
    cases s.alloc.mem.freePhysicalPage a 1 <;> rfl

/-- A release takes the frames that are free then from the ones in use. -/
theorem pagesAfter_released (hsub : m.freeFrames ⊆ m'.freeFrames) :
    pagesAfter pages m m' = pages \ m'.freeFrames := by
  rw [pagesAfter, Finset.sdiff_eq_empty_iff_subset.mpr hsub, Finset.union_empty]

/-- Nothing in the allocator of blocks sees that some other frame is given back. -/
theorem unnoticed_mark (hlt : f < wordSize) :
    Unnoticed (fun s => f / pgSize ∉ s.pages) (mark f) := by
  have hmark (m : Mem) (a : Nat) := Mem.freePhysicalPage_mark m f a 1
  refine ⟨fun _ _ => rfl, fun b s hs => ?_, fun a s hs => ⟨?_, fun t ht => ?_⟩⟩
  · have hkfree := Allocator.kfree_onMem hmark s.alloc b
    change ((s.alloc.onMem (Mem.mark f)).kfree b).bind _ = _ ∧ _
    rw [hkfree]
    simp only [BlockState.kfree, blockStep]
    cases ha : s.alloc.kfree b with
    | none =>
        refine ⟨rfl, fun t ht => ?_⟩
        cases ht
    | some a =>
        rw [ha] at hkfree
        have hpages : pagesAfter s.pages s.alloc.mem a.mem = s.pages \ a.mem.freeFrames :=
          pagesAfter_released (Allocator.kfree_keeps ha).2
        have hpages' : pagesAfter s.pages (s.alloc.mem.mark f) (a.mem.mark f) =
            s.pages \ (a.mem.mark f).freeFrames :=
          pagesAfter_released (Allocator.kfree_keeps hkfree).2
        have hsame : s.pages \ (a.mem.mark f).freeFrames = s.pages \ a.mem.freeFrames := by
          ext x
          rw [Finset.mem_sdiff, Finset.mem_sdiff]
          refine and_congr_right fun hx => not_congr (Mem.mem_freeFrames_mark hlt ?_)
          rintro rfl
          exact hs hx
        constructor
        · simp only [Option.map_some, Option.bind_some, Option.bind_eq_bind, Option.pure_def,
            Option.some.injEq, hpages]
          unfold mark
          simp only [← hsame, ← hpages']
          rfl
        · rintro t ht
          obtain rfl := Option.some.inj ht
          simp only [hpages, Finset.mem_sdiff, hs, false_and, not_false_eq_true]
  · change ((s.alloc.mem.mark f).freePhysicalPage a 1).bind _ = _
    rw [hmark]
    simp only [BlockState.freePhysicalPage]
    cases s.alloc.mem.freePhysicalPage a 1 with
    | none => rfl
    | some m =>
        simp only [Option.map_some, Option.bind_some, Option.bind_eq_bind, Option.pure_def,
          Option.some.injEq]
        unfold mark
        simp only [List.erase_comm (f, 1)]
        rfl
  · obtain ⟨m, -, ht⟩ := Option.bind_eq_some_iff.mp ht
    obtain rfl := Option.some.inj ht
    exact hs

/-! ## Requests -/

section Ahead

variable {k : Nat} {contents : Group → List Nat} {group : Nat → Group}

theorem ahead_ahead (s : BlockState) (j k : Nat) : (s.ahead j).ahead k = s.ahead (j + k) := by
  have hcount : add64 (add64 s.alloc.mem.freePages j) k = add64 s.alloc.mem.freePages (j + k) := by
    unfold add64
    rw [Nat.mod_add_mod, Nat.add_assoc]
  unfold ahead Allocator.onMem Mem.ahead
  simp only [hcount]

theorem ahead_zero (hm : s.alloc.mem.Counted) : s.ahead 0 = s := by
  unfold ahead Allocator.onMem
  simp only [Mem.ahead_zero hm]

theorem kmalloc_ahead (hm : s.alloc.mem.Counted) (hk : k < 2 ^ 63)
    (size alignment boundary addr : Nat) : (s.ahead k).kmalloc size alignment boundary addr =
      (s.kmalloc size alignment boundary addr).map fun r => (r.1, r.2.1, r.2.2.ahead k) := by
  change ((s.alloc.onMem (Mem.ahead · k)).kmalloc size alignment boundary addr).bind _ = _
  rw [Allocator.kmalloc_ahead hm hk]
  simp only [BlockState.kmalloc]
  cases s.alloc.kmalloc size alignment boundary addr <;> rfl

theorem newTable_ahead (hm : s.alloc.mem.Counted) (hk : k < 2 ^ 63) :
    (s.ahead k).newTable = s.newTable.map fun r => (r.1, r.2.ahead k) := by
  unfold BlockState.newTable
  rw [kmalloc_ahead hm hk]
  cases s.kmalloc ptSize 0 ptSize 0 with
  | none => rfl
  | some r =>
      simp only [Option.map_some, Option.bind_eq_bind, Option.bind_some]
      split <;> rfl

theorem createPageDir_ahead (hm : s.alloc.mem.Counted) (hk : k < 2 ^ 63) :
    (s.ahead k).createPageDir = s.createPageDir.map fun r => (r.1, r.2.ahead k) := by
  unfold BlockState.createPageDir
  rw [kmalloc_ahead hm hk]
  cases s.kmalloc ptSize 0 ptSize 0 with
  | none => rfl
  | some r =>
      simp only [Option.map_some, Option.bind_eq_bind, Option.bind_some]
      split <;> rfl

/-- The invariant of the allocators holds. -/
def Sound (s : BlockState) : Prop := ∃ contents group, BlockInv s contents group

theorem Sound.counted (h : s.Sound) : s.alloc.mem.Counted := by
  obtain ⟨contents, group, hinv⟩ := h
  exact hinv.rep.frames.counted

theorem Sound.store (h : s.Sound) (a word : Nat) : (s.store a word).Sound := by
  obtain ⟨contents, group, hinv⟩ := h
  exact ⟨contents, group, inv_bytes hinv _⟩

theorem ensureTable_ahead (hk : k < 2 ^ 63) (entry : Nat) :
    Blind Sound (ahead · k) fun s => s.ensureTable entry := by
  refine .ite (fun _ => Iff.rfl) (fun s hs => ⟨?_, fun t ht => ?_⟩) .pure
  · rw [newTable_ahead hs.counted hk]
    cases s.newTable <;> rfl
  · obtain ⟨contents, group, hinv⟩ := hs
    obtain ⟨⟨v, u⟩, hnew, ht⟩ := Option.bind_eq_some_iff.mp ht
    obtain rfl := Option.some.inj ht
    obtain ⟨contents', group', -, hinv', -⟩ := newTable_spec hinv hnew
    exact Sound.store ⟨contents', group', hinv'⟩ _ _

theorem store_ahead (entry : Nat) (place : Nat → Nat) (word : Nat) :
    Blind Sound (ahead · k) fun s => some (s.store (place (s.load entry)) word) := by
  refine fun s hs => ⟨rfl, fun t ht => ?_⟩
  obtain rfl := Option.some.inj ht
  exact hs.store _ word

/-- `page_map` does not depend on how far the counter is ahead. -/
theorem pageMap_ahead (hk : k < 2 ^ 63) (pml4t paddr vaddr : Nat) :
    Blind Sound (ahead · k) fun s => s.pageMap pml4t paddr vaddr := by
  have hlevels (pml4e : Nat) (pdpte pde : Nat → Nat) (word : Nat) :
      Blind Sound (ahead · k) fun s => (s.ensureTable pml4e).bind fun s =>
        (s.ensureTable (pdpte (s.load pml4e))).bind fun u =>
          some (u.store (pde (u.load (pdpte (s.load pml4e)))) word) :=
    .bind (ensureTable_ahead hk pml4e) <|
      .read (fun s => (rfl : (s.ahead k).load pml4e = s.load pml4e)) fun entry =>
        .bind (ensureTable_ahead hk (pdpte entry)) (store_ahead (pdpte entry) pde word)
  exact hlevels (physToVirt pml4t + 8 * addrPml4tIndex (vaddr &&& pageMask))
    (fun entry => physToVirt ((entry &&& entryMask) + 8 * addrPdptIndex (vaddr &&& pageMask)))
    (fun entry => physToVirt ((entry &&& entryMask) + 8 * addrPdtIndex (vaddr &&& pageMask)))
    ((paddr &&& pageMask) ||| pgDefaultFlags)

/-- A call of the kernel has the same result whether the counter is ahead or not. -/
theorem blockStep_ahead (hm : s.alloc.mem.Counted) (hk : k < 2 ^ 63) (c : BlockCall) :
    blockStep (s.ahead k) c = (blockStep s c).map (ahead · k) := by
  cases c with
  | kmalloc size alignment boundary addr =>
      change ((s.alloc.onMem (Mem.ahead · k)).kmalloc size alignment boundary addr).bind _ = _
      rw [Allocator.kmalloc_ahead hm hk]
      simp only [blockStep]
      cases s.alloc.kmalloc size alignment boundary addr <;> rfl
  | kfree b => exact ((unnoticed_ahead k).kfree b s trivial).1
  | store a cell => rfl
  | frames d =>
      cases d with
      | alloc n =>
          rcases Nat.eq_zero_or_pos n with rfl | hn
          · rfl
          · obtain ⟨status, addr, m, heq, hout⟩ := Mem.allocPhysicalPage_ahead hm hk hn
            change (frameStep ⟨s.alloc.mem.ahead k, s.others⟩ (.alloc n)).bind _ = _
            simp only [blockStep, frameStep, heq]
            rcases hout with ⟨rfl, heq'⟩ | ⟨rfl, addr', heq'⟩
            · rw [heq']
              cases addr <;> rfl
            · rw [heq']
              rfl
      | free addr n =>
          change (frameStep ⟨s.alloc.mem.ahead k, s.others⟩ (.free addr n)).bind _ = _
          simp only [blockStep, frameStep, Mem.freePhysicalPage_ahead]
          split
          · cases s.alloc.mem.freePhysicalPage addr n <;> rfl
          · rfl

end Ahead

end BlockState

end ClayFigure
