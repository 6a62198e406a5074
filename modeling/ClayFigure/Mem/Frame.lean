/-
# The physical frame allocator of `mem/page.c`

Frames are handed out by a first-fit search of the frame bitmap, with a counter
of the free frames checked first. The counter, the search, the loop that clears
the bits and the loop that sets them again are kept apart, as the code has them;
the results tie them together over whole histories of requests and releases.
-/

import ClayFigure.Lib.Bitmap
import ClayFigure.Math.Transition

namespace ClayFigure

open ClayFigure.Math

/-- The static `mem` record of `page.c`. -/
structure Mem where
  pageBitmap : Bitmap pageBitmapBytesLen
  memSize : Nat
  totalPages : Nat
  totalFreePages : Nat
  freePages : Nat

/-- What a frame request leaves behind: its status, the value stored through the
`addr` pointer (`none` when nothing is stored) and the allocator. -/
structure AllocResult where
  status : Status
  addr : Option Nat
  mem : Mem

namespace Mem

/-- Iterations of `for (i = first; i < first + count; i++)` on 64-bit words. -/
def loopCount (first count : Nat) : Nat := add64 first count - first

/-- `alloc_physical_page_sub`. -/
def allocPhysicalPageSub (m : Mem) (numberOfPages : Nat) : AllocResult :=
  match m.pageBitmap.bitmapAlloc 1 numberOfPages with
  | .error _ => ⟨.kNomem, none, m⟩
  | .ok index =>
      ⟨.kSuccess, some (index * pgSize),
        { m with
          pageBitmap := m.pageBitmap.setBits index (loopCount index numberOfPages) 0
          freePages := sub64 m.freePages numberOfPages }⟩

/-- `alloc_physical_page`; `none` is a failed `ASSERT`, after which the machine
stops. -/
def allocPhysicalPage (m : Mem) (numberOfPages : Nat) : Option AllocResult :=
  if numberOfPages = 0 then none
  else if m.freePages < numberOfPages then some ⟨.kNomem, some 0, m⟩
  else some (allocPhysicalPageSub m numberOfPages)

/-- `free_physical_page`; `none` is a failed `ASSERT`. -/
def freePhysicalPage (m : Mem) (addr numberOfPages : Nat) : Option Mem :=
  if numberOfPages = 0 then none
  else if addr = 0 ∨ addr &&& 0x1fffff ≠ 0 then none
  else
    let first := addr / pgSize
    some { m with
      pageBitmap := m.pageBitmap.setBits first (loopCount first numberOfPages) 1
      freePages := add64 m.freePages numberOfPages }

/-- The set of free frames. -/
def freeFrames (m : Mem) : Finset Nat := m.pageBitmap.freeBits

/-- The counter agrees with the bitmap. -/
def Counted (m : Mem) : Prop := m.freePages = m.freeFrames.card

theorem btmpBytesLen_le (m : Mem) : m.pageBitmap.btmpBytesLen ≤ 2048 :=
  m.pageBitmap.len_le

theorem card_freeFrames_le (m : Mem) :
    m.freeFrames.card ≤ m.pageBitmap.btmpBytesLen * 8 := by
  have hle := Finset.card_le_card
    (Finset.filter_subset (m.pageBitmap.HasBit 1)
      (Finset.range (m.pageBitmap.btmpBytesLen * 8)))
  rwa [Finset.card_range] at hle

theorem loopCount_of_lt {first count : Nat} (h : first + count < wordSize) :
    loopCount first count = count := by
  rw [loopCount, add64_of_lt h]
  omega

theorem and_mask_eq_zero_iff {addr : Nat} :
    addr &&& 0x1fffff = 0 ↔ addr % pgSize = 0 := by
  rw [show (0x1fffff : Nat) = 2 ^ 21 - 1 from rfl, Nat.and_two_pow_sub_one_eq_mod]

/-! ## One call -/

theorem freeBits_setBits_zero (b : Bitmap pageBitmapBytesLen) (start n : Nat) :
    (b.setBits start n 0).freeBits = b.freeBits \ Finset.Ico start (start + n) := by
  ext i
  simp only [Bitmap.mem_freeBits, Bitmap.hasBit_setBits b start n (Or.inl rfl),
    Finset.mem_sdiff, Finset.mem_Ico]
  by_cases hi : start ≤ i ∧ i < start + n ∧ i < b.btmpBytesLen * 8
  · simp [hi]
  · rw [if_neg hi]
    constructor
    · intro hbit
      have := hbit.lt
      exact ⟨hbit, by omega⟩
    · exact And.left

theorem freeBits_setBits_one (b : Bitmap pageBitmapBytesLen) {start n : Nat}
    (hlen : start + n ≤ b.btmpBytesLen * 8) :
    (b.setBits start n 1).freeBits = b.freeBits ∪ Finset.Ico start (start + n) := by
  ext i
  simp only [Bitmap.mem_freeBits, Bitmap.hasBit_setBits b start n (Or.inr rfl),
    Finset.mem_union, Finset.mem_Ico]
  by_cases hi : start ≤ i ∧ i < start + n ∧ i < b.btmpBytesLen * 8
  · simp [hi]
  · rw [if_neg hi]
    constructor
    · exact Or.inl
    · rintro (hbit | hin)
      · exact hbit
      · omega

/-- A run of free frames lies below the capacity of the bitmap. -/
theorem run_lt {m : Mem} {start n : Nat} (hn : 0 < n)
    (hrun : Run (· ∈ m.freeFrames) start n) :
    start + n ≤ m.pageBitmap.btmpBytesLen * 8 := by
  have := (Bitmap.mem_freeBits.mp (hrun (start + n - 1) (by omega) (by omega))).lt
  omega

/-- The search either takes the lowest run of free frames, or there is no run and
nothing changes; the counter plays no part in it. -/
theorem allocPhysicalPageSub_spec (m : Mem) {n : Nat} (hn : 0 < n) :
    (∃ index, IsFirstRun (· ∈ m.freeFrames) n index ∧
      allocPhysicalPageSub m n = ⟨.kSuccess, some (index * pgSize),
        { m with pageBitmap := m.pageBitmap.setBits index n 0,
                 freePages := sub64 m.freePages n }⟩) ∨
    (allocPhysicalPageSub m n = ⟨.kNomem, none, m⟩ ∧ ∀ s, ¬ Run (· ∈ m.freeFrames) s n) := by
  have hpred : (m.pageBitmap.HasBit 1) = (· ∈ m.freeFrames) :=
    funext fun i => propext Bitmap.mem_freeBits.symm
  have hcap := m.btmpBytesLen_le
  have hspec := m.pageBitmap.bitmapAlloc_spec (Or.inr rfl : 1 = 0 ∨ 1 = 1) (by omega) hn
  rw [hpred] at hspec
  unfold allocPhysicalPageSub
  cases halloc : m.pageBitmap.bitmapAlloc 1 n with
  | error e =>
      rw [halloc] at hspec
      exact Or.inr ⟨rfl, hspec⟩
  | ok index =>
      rw [halloc] at hspec
      have hend := run_lt hn hspec.run
      have hcount : loopCount index n = n := loopCount_of_lt (by unfold wordSize; omega)
      exact Or.inl ⟨index, hspec, by simp only [hcount]⟩

/-- A request either takes the lowest run of free frames, or there is no run
and the allocator is left as it was. -/
theorem allocPhysicalPage_spec {m : Mem} (hm : m.Counted) {n : Nat} (hn : 0 < n) :
    (∃ index m', allocPhysicalPage m n = some ⟨.kSuccess, some (index * pgSize), m'⟩ ∧
      IsFirstRun (· ∈ m.freeFrames) n index ∧
      m'.pageBitmap.btmpBytesLen = m.pageBitmap.btmpBytesLen ∧
      m'.freeFrames = m.freeFrames \ Finset.Ico index (index + n) ∧ m'.Counted) ∨
    (∃ addr, allocPhysicalPage m n = some ⟨.kNomem, addr, m⟩ ∧
      ∀ s, ¬ Run (· ∈ m.freeFrames) s n) := by
  have hcap := m.btmpBytesLen_le
  unfold allocPhysicalPage
  rw [if_neg (by omega : n ≠ 0)]
  by_cases hfew : m.freePages < n
  · -- The pre-check is sound because the counter is the number of free frames.
    refine Or.inr ⟨some 0, if_pos hfew, fun s hrun => ?_⟩
    have := hrun.card_le
    rw [Counted] at hm
    omega
  · rw [if_neg hfew]
    rcases m.allocPhysicalPageSub_spec hn with ⟨index, hfirst, heq⟩ | ⟨heq, hnone⟩
    · have hsub : Finset.Ico index (index + n) ⊆ m.freeFrames := fun i hi => by
        rw [Finset.mem_Ico] at hi
        exact hfirst.run i hi.1 hi.2
      have hle := m.card_freeFrames_le
      rw [heq]
      refine Or.inl ⟨index, _, rfl, hfirst, ?_, ?_, ?_⟩
      · simp
      · simp only [freeFrames, freeBits_setBits_zero]
      · have hcard := Finset.card_sdiff_of_subset hsub
        have hncard := Finset.card_le_card hsub
        rw [Nat.card_Ico] at hcard hncard
        simp only [Counted, freeFrames, freeBits_setBits_zero] at hm ⊢
        unfold freeFrames at hcard hle
        rw [sub64_of_le (by omega) (by unfold wordSize; omega)]
        omega
    · rw [heq]
      exact Or.inr ⟨none, rfl, hnone⟩

/-- A release of frames that are not free makes them free and counts them. -/
theorem freePhysicalPage_spec {m : Mem} (hm : m.Counted) {first n : Nat} (hn : 0 < n)
    (hfirst : 0 < first) (hlen : first + n ≤ m.pageBitmap.btmpBytesLen * 8)
    (hused : Disjoint (Finset.Ico first (first + n)) m.freeFrames) :
    ∃ m', freePhysicalPage m (first * pgSize) n = some m' ∧
      m'.pageBitmap.btmpBytesLen = m.pageBitmap.btmpBytesLen ∧
      m'.freeFrames = m.freeFrames ∪ Finset.Ico first (first + n) ∧ m'.Counted := by
  have hcap := m.btmpBytesLen_le
  have hdiv : first * pgSize / pgSize = first := Nat.mul_div_cancel _ (by decide)
  have hcount : loopCount first n = n := loopCount_of_lt (by unfold wordSize; omega)
  have haligned : ¬ (first * pgSize = 0 ∨ first * pgSize &&& 0x1fffff ≠ 0) := by
    rw [not_or, not_not, and_mask_eq_zero_iff]
    exact ⟨by unfold pgSize; omega, Nat.mul_mod_left _ _⟩
  have hle := m.card_freeFrames_le
  have hcardIco : (Finset.Ico first (first + n)).card = n := by simp
  refine ⟨_, by rw [freePhysicalPage, if_neg (by omega), if_neg haligned], ?_, ?_, ?_⟩
  · simp
  · simp only [freeFrames, hdiv, hcount, freeBits_setBits_one _ hlen]
  · have hunion := Finset.card_union_of_disjoint hused.symm
    rw [hcardIco] at hunion
    simp only [Counted, freeFrames, hdiv, hcount, freeBits_setBits_one _ hlen] at hm ⊢
    unfold freeFrames at hunion hle
    rw [add64_of_lt (by unfold wordSize; omega)]
    omega

/-- No frame can be had. -/
def NoFrame (m : Mem) : Prop := m.freePages = 0 ∨ m.freeFrames = ∅

/-- A single frame is refused just when the counter or the bitmap has none. -/
theorem allocPhysicalPage_one (m : Mem) :
    (m.NoFrame ∧ ∃ addr, m.allocPhysicalPage 1 = some ⟨.kNomem, addr, m⟩) ∨
      ¬ m.NoFrame ∧ ∃ f m', f ∈ m.freeFrames ∧ f < 16384 ∧
        m.allocPhysicalPage 1 = some ⟨.kSuccess, some (f * pgSize), m'⟩ ∧
        m'.freeFrames = m.freeFrames \ {f} := by
  have hrun (i : Nat) : Run (· ∈ m.freeFrames) i 1 ↔ i ∈ m.freeFrames := by
    refine ⟨fun h => h i le_rfl (Nat.lt_succ_self i), fun h j hlo hhi => ?_⟩
    rw [show j = i by omega]
    exact h
  have hcap := m.btmpBytesLen_le
  unfold allocPhysicalPage NoFrame
  rw [if_neg Nat.one_ne_zero]
  by_cases hfew : m.freePages < 1
  · rw [if_pos hfew]
    exact Or.inl ⟨Or.inl (by omega), _, rfl⟩
  · rw [if_neg hfew]
    rcases m.allocPhysicalPageSub_spec Nat.one_pos with ⟨f, hfirst, heq⟩ | ⟨heq, hnone⟩
    · have hmem := (hrun f).mp hfirst.run
      have hlt := run_lt Nat.one_pos hfirst.run
      rw [heq]
      refine Or.inr ⟨fun hno => ?_, f, _, hmem, by omega, rfl, ?_⟩
      · rcases hno with hno | hno
        · omega
        · rw [hno] at hmem
          exact absurd hmem (Finset.notMem_empty _)
      · simp only [freeFrames, freeBits_setBits_zero, Nat.Ico_succ_singleton]
    · rw [heq]
      refine Or.inl ⟨Or.inr (Finset.eq_empty_of_forall_notMem fun i hi => ?_), _, rfl⟩
      exact hnone i ((hrun i).mpr hi)

end Mem

/-! ## Histories -/

/-- An allocator and its live allocations, each as the address handed out and the
number of frames. -/
structure FrameState where
  mem : Mem
  live : List (Nat × Nat)

/-- A call of a user of the allocator. -/
inductive FrameCall
  | alloc (numberOfPages : Nat)
  | free (addr numberOfPages : Nat)
  deriving DecidableEq

/-- The frames of an allocation. -/
def allocFrames (a : Nat × Nat) : Finset Nat :=
  Finset.Ico (a.1 / pgSize) (a.1 / pgSize + a.2)

/-- One call. Users request at least one frame and release only what is live,
with the address and the count of the request; `none` also stands for a failed
`ASSERT`. -/
def frameStep (s : FrameState) : FrameCall → Option FrameState
  | .alloc n =>
      match s.mem.allocPhysicalPage n with
      | none => none
      | some r =>
          match r.status, r.addr with
          | .kSuccess, some addr => some ⟨r.mem, (addr, n) :: s.live⟩
          | _, _ => some ⟨r.mem, s.live⟩
  | .free addr n =>
      if (addr, n) ∈ s.live then
        match s.mem.freePhysicalPage addr n with
        | none => none
        | some m => some ⟨m, s.live.erase (addr, n)⟩
      else none

/-- Histories of any consistent allocator that keeps frame 0 reserved. -/
def frameSystem : System FrameState FrameCall where
  init s := s.live = [] ∧ s.mem.Counted ∧ 0 ∉ s.mem.freeFrames
  step s c t := frameStep s c = some t

/-- What links live allocations, bitmap and counter. -/
structure FrameInv (s : FrameState) : Prop where
  counted : s.mem.Counted
  reserved : 0 ∉ s.mem.freeFrames
  aligned : ∀ a ∈ s.live, a.1 / pgSize * pgSize = a.1
  nonempty : ∀ a ∈ s.live, 0 < a.2
  inside : ∀ a ∈ s.live, 0 < a.1 / pgSize ∧
    a.1 / pgSize + a.2 ≤ s.mem.pageBitmap.btmpBytesLen * 8
  used : ∀ a ∈ s.live, Disjoint (allocFrames a) s.mem.freeFrames
  disjoint : s.live.Pairwise fun a b => Disjoint (allocFrames a) (allocFrames b)

@[simp]
theorem allocFrames_mk (first n : Nat) :
    allocFrames (first * pgSize, n) = Finset.Ico first (first + n) := by
  rw [allocFrames, Nat.mul_div_cancel _ (by decide : 0 < pgSize)]

/-- A request changes nothing or takes the lowest run of free frames. -/
theorem frameStep_alloc {s t : FrameState} {n : Nat} (h : frameStep s (.alloc n) = some t) :
    t = s ∨ ∃ index, IsFirstRun (· ∈ s.mem.freeFrames) n index ∧
      t.live = (index * pgSize, n) :: s.live ∧
      t.mem.freeFrames = s.mem.freeFrames \ Finset.Ico index (index + n) := by
  unfold frameStep Mem.allocPhysicalPage at h
  by_cases hn : n = 0
  · simp [hn] at h
  · by_cases hfew : s.mem.freePages < n
    · simp only [if_neg hn, if_pos hfew, Option.some.injEq] at h
      exact Or.inl h.symm
    · rcases s.mem.allocPhysicalPageSub_spec (by omega : 0 < n) with
        ⟨index, hfirst, heq⟩ | ⟨heq, -⟩
      · simp only [if_neg hn, if_neg hfew, heq, Option.some.injEq] at h
        subst h
        refine Or.inr ⟨index, hfirst, rfl, ?_⟩
        simp only [Mem.freeFrames, Mem.freeBits_setBits_zero]
      · simp only [if_neg hn, if_neg hfew, heq, Option.some.injEq] at h
        exact Or.inl h.symm

/-- A release is one of a live allocation and frees frames of it only. -/
theorem frameStep_free {s t : FrameState} {addr n : Nat}
    (h : frameStep s (.free addr n) = some t) :
    (addr, n) ∈ s.live ∧ t.live = s.live.erase (addr, n) ∧
      t.mem.freeFrames ⊆ s.mem.freeFrames ∪ allocFrames (addr, n) := by
  unfold frameStep Mem.freePhysicalPage at h
  by_cases hlive : (addr, n) ∈ s.live
  · by_cases hzero : n = 0
    · simp [hzero] at h
    · by_cases hbad : addr = 0 ∨ addr &&& 0x1fffff ≠ 0
      · simp [hzero, hbad, hlive] at h
      · simp only [if_pos hlive, if_neg hzero, if_neg hbad, Option.some.injEq] at h
        subst h
        refine ⟨hlive, rfl, fun i hi => ?_⟩
        have hcount : Mem.loopCount (addr / pgSize) n ≤ n := by
          unfold Mem.loopCount add64
          have := Nat.mod_le (addr / pgSize + n) wordSize
          omega
        rw [Mem.freeFrames, Bitmap.mem_freeBits, Bitmap.hasBit_setBits _ _ _ (Or.inr rfl)] at hi
        rw [Finset.mem_union, Mem.freeFrames, Bitmap.mem_freeBits, allocFrames, Finset.mem_Ico]
        simp only
        split at hi
        · exact Or.inr (by omega)
        · exact Or.inl hi
  · simp [hlive] at h

namespace FrameInv

/-- A request of at least one frame keeps the invariant. -/
theorem alloc {s t : FrameState} (hs : FrameInv s) {n : Nat}
    (hstep : frameStep s (.alloc n) = some t) : FrameInv t := by
  by_cases hn : 0 < n
  · rcases Mem.allocPhysicalPage_spec hs.counted hn with
      ⟨index, m', heq, hfirst, hlen, hfree, hcount⟩ | ⟨addr, heq, -⟩
    · simp only [frameStep, heq, Option.some.injEq] at hstep
      subst hstep
      have hend := Mem.run_lt hn hfirst.run
      have hsub : Finset.Ico index (index + n) ⊆ s.mem.freeFrames := fun i hi => by
        rw [Finset.mem_Ico] at hi
        exact hfirst.run i hi.1 hi.2
      have hpos : 0 < index := by
        by_contra hzero
        exact hs.reserved (hsub (Finset.mem_Ico.mpr ⟨by omega, by omega⟩))
      have hdiv : index * pgSize / pgSize = index := Nat.mul_div_cancel _ (by decide)
      refine ⟨hcount, ?_, ?_, ?_, ?_, ?_, ?_⟩
      · rw [hfree]
        exact fun h => hs.reserved (Finset.mem_sdiff.mp h).1
      · refine List.forall_mem_cons.mpr ⟨?_, hs.aligned⟩
        simp only [hdiv]
      · exact List.forall_mem_cons.mpr ⟨hn, hs.nonempty⟩
      · rw [hlen]
        refine List.forall_mem_cons.mpr ⟨?_, hs.inside⟩
        simp only [hdiv]
        exact ⟨hpos, hend⟩
      · rw [hfree]
        refine List.forall_mem_cons.mpr ⟨?_, fun a ha => ?_⟩
        · rw [allocFrames_mk]
          exact Finset.disjoint_sdiff
        · exact (hs.used a ha).mono_right Finset.sdiff_subset
      · refine List.pairwise_cons.mpr ⟨fun a ha => ?_, hs.disjoint⟩
        rw [allocFrames_mk]
        exact ((hs.used a ha).mono_right hsub).symm
    · simp only [frameStep, heq, Option.some.injEq] at hstep
      exact hstep ▸ hs
  · have hzero : n = 0 := by omega
    simp [frameStep, Mem.allocPhysicalPage, hzero] at hstep

/-- The release of a live allocation passes its `ASSERT`s. -/
theorem freePhysicalPage_live {s : FrameState} (hs : FrameInv s) {a : Nat × Nat}
    (ha : a ∈ s.live) :
    ∃ m', s.mem.freePhysicalPage a.1 a.2 = some m' ∧
      m'.pageBitmap.btmpBytesLen = s.mem.pageBitmap.btmpBytesLen ∧
      m'.freeFrames = s.mem.freeFrames ∪ allocFrames a ∧ m'.Counted := by
  have hspec := Mem.freePhysicalPage_spec hs.counted (hs.nonempty a ha)
    (hs.inside a ha).1 (hs.inside a ha).2 (hs.used a ha)
  rwa [hs.aligned a ha] at hspec

/-- The release of a live allocation keeps the invariant. -/
theorem free {s t : FrameState} (hs : FrameInv s) {addr n : Nat}
    (hstep : frameStep s (.free addr n) = some t) : FrameInv t := by
  by_cases ha : (addr, n) ∈ s.live
  · obtain ⟨m', heq, hlen, hfree, hcount⟩ := hs.freePhysicalPage_live ha
    simp only [frameStep, ha, if_true, heq, Option.some.injEq] at hstep
    subst hstep
    have hsub := List.erase_subset (a := (addr, n)) (l := s.live)
    -- After the erasure every other live allocation is disjoint from the released one.
    have hperm := List.perm_cons_erase ha
    have hsplit := (hperm.pairwise_iff
      (R := fun a b => Disjoint (allocFrames a) (allocFrames b))
      fun h => h.symm).mp hs.disjoint
    rw [List.pairwise_cons] at hsplit
    refine ⟨hcount, ?_, fun a h => hs.aligned a (hsub h), fun a h => hs.nonempty a (hsub h),
      fun a h => ?_, fun a h => ?_, hsplit.2⟩
    · rw [hfree, Finset.mem_union, not_or]
      refine ⟨hs.reserved, fun hzero => ?_⟩
      have hpos := (hs.inside _ ha).1
      rw [allocFrames, Finset.mem_Ico] at hzero
      omega
    · rw [hlen]
      exact hs.inside a (hsub h)
    · rw [hfree, Finset.disjoint_union_right]
      exact ⟨hs.used a (hsub h), (hsplit.1 a h).symm⟩
  · simp [frameStep, ha] at hstep

theorem of_reachable {s : FrameState} (hreach : frameSystem.Reachable s) :
    FrameInv s := by
  refine hreach.invariant ?_ ?_
  · rintro ⟨m, live⟩ ⟨hlive, hcounted, hreserved⟩
    simp only at hlive hcounted hreserved
    subst hlive
    exact ⟨hcounted, hreserved, by simp, by simp, by simp, by simp, List.Pairwise.nil⟩
  · rintro s (n | ⟨addr, n⟩) t hs - hstep
    · exact hs.alloc hstep
    · exact hs.free hstep

end FrameInv

/-- Over every history: live allocations are disjoint runs of frames none of which
is marked free, the counter is the number of set bits, a request succeeds exactly
when a run of free frames exists and takes the lowest one, a failed request
changes nothing, and no release of a live allocation fails an `ASSERT`. -/
theorem frameSystem_history {s : FrameState} (hreach : frameSystem.Reachable s) :
    (s.live.Pairwise fun a b => Disjoint (allocFrames a) (allocFrames b)) ∧
    (∀ a ∈ s.live, a.1 % pgSize = 0 ∧ (allocFrames a).card = a.2 ∧
      Disjoint (allocFrames a) s.mem.freeFrames) ∧
    s.mem.freePages = s.mem.freeFrames.card ∧
    (∀ n, 1 ≤ n → ∃ r, s.mem.allocPhysicalPage n = some r ∧
      (r.status = .kSuccess ↔ ∃ start, Run (· ∈ s.mem.freeFrames) start n) ∧
      (r.status = .kSuccess → ∃ start, IsFirstRun (· ∈ s.mem.freeFrames) n start ∧
        r.addr = some (start * pgSize)) ∧
      (r.status ≠ .kSuccess → r.mem = s.mem)) ∧
    (∀ a ∈ s.live, (s.mem.freePhysicalPage a.1 a.2).isSome) := by
  have hs := FrameInv.of_reachable hreach
  refine ⟨hs.disjoint, fun a ha => ⟨?_, by simp [allocFrames], hs.used a ha⟩,
    hs.counted, fun n hn => ?_, fun a ha => ?_⟩
  · rw [← hs.aligned a ha]
    exact Nat.mul_mod_left _ _
  · rcases Mem.allocPhysicalPage_spec hs.counted hn with
      ⟨index, m', heq, hfirst, -⟩ | ⟨addr, heq, hnone⟩
    · exact ⟨_, heq, ⟨fun _ => ⟨index, hfirst.run⟩, fun _ => rfl⟩,
        fun _ => ⟨index, hfirst, rfl⟩, fun h => absurd rfl h⟩
    · refine ⟨_, heq, ⟨fun h => ?_, fun ⟨s, hrun⟩ => absurd hrun (hnone s)⟩, fun h => ?_,
        fun _ => rfl⟩ <;> cases h
  · obtain ⟨m', heq, -⟩ := hs.freePhysicalPage_live ha
    rw [heq]
    rfl

/-- A machine with 16 frames whose first three are reserved. -/
def bootFrames : FrameState where
  mem :=
    { pageBitmap := Bitmap.setBits ⟨2, Vector.replicate _ 0#8, by decide⟩ 3 13 1
      memSize := 16 * pgSize
      totalPages := 16
      totalFreePages := 13
      freePages := 13 }
  live := []

theorem bootFrames_init : frameSystem.init bootFrames := by
  have hfree : bootFrames.mem.freeFrames = Finset.Ico 3 16 := by
    ext i
    simp only [Mem.freeFrames, Bitmap.mem_freeBits, bootFrames,
      Bitmap.hasBit_setBits _ _ _ (Or.inr rfl), Finset.mem_Ico]
    by_cases hi : 3 ≤ i ∧ i < 3 + 13 ∧ i < 2 * 8
    · rw [if_pos hi]
      exact ⟨fun _ => ⟨hi.1, by omega⟩, fun _ => trivial⟩
    · rw [if_neg hi]
      refine ⟨fun hbit => ?_, fun h => absurd h (by omega)⟩
      have hdiv := hbit.lt
      rw [Bitmap.HasBit, Bitmap.bitmapScanTest_of_lt _ (by simp only at hdiv ⊢; omega)] at hbit
      simp [Bitmap.byte, Vector.get] at hbit
  refine ⟨rfl, ?_, ?_⟩
  · rw [Mem.Counted, hfree]
    rfl
  · rw [hfree]
    decide

/-- After a request for two frames the counter still counts the free frames. -/
theorem bootFrames_alloc : ∃ t, frameStep bootFrames (.alloc 2) = some t ∧
    t.mem.freePages = t.mem.freeFrames.card := by
  have hboot : frameSystem.Reachable bootFrames := .init bootFrames_init
  rcases Mem.allocPhysicalPage_spec (FrameInv.of_reachable hboot).counted
      (by decide : 0 < 2) with ⟨index, m', heq, -⟩ | ⟨addr, heq, -⟩
  · have hstep : frameStep bootFrames (.alloc 2) =
        some ⟨m', (index * pgSize, 2) :: bootFrames.live⟩ := by
      simp only [frameStep, heq]
    exact ⟨_, hstep, (frameSystem_history (hboot.step trivial hstep)).2.2.1⟩
  · have hstep : frameStep bootFrames (.alloc 2) =
        some ⟨bootFrames.mem, bootFrames.live⟩ := by
      simp only [frameStep, heq]
    exact ⟨_, hstep, (frameSystem_history (hboot.step trivial hstep)).2.2.1⟩

end ClayFigure
