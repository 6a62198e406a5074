/-
# The first-fit search of `lib/bitmap.c` on memory

The same search is stated twice more: as a program that loads bytes from memory,
where an address outside the map holds nothing, and as the plain search that tries
every index in turn. The first says what the code touches, the second what it
returns; `bitmapAlloc` agrees with both.
-/

import ClayFigure.Lib.Bitmap

namespace ClayFigure

open ClayFigure.Math

namespace Bitmap

variable {capacity : Nat}

/-! ## The search on memory -/

/-- The bytes at the addresses behind the map pointer; nothing is mapped at `none`. -/
abbrev MapMemory := Nat → Option (BitVec 8)

/-- Code that runs on the memory. It fails at the first access of an address at which
nothing is mapped. -/
abbrev MapM := StateT MapMemory Option

/-- Load the byte `btmp->map[i]`. -/
def load (i : Nat) : MapM (BitVec 8) := fun mem => (mem i).map fun byte => (byte, mem)

/-- `bitmap_scan_test` of a map with `len` bytes. -/
def bitmapScanTestOn (len bitIndex : Nat) : MapM (Option Bool) :=
  if bitIndex / 8 ≥ len then return none
  else do
    let byte ← load (bitIndex / 8)
    return some (decide (byte &&& (1#8 <<< (bitIndex % 8)) ≠ 0#8))

/-- The first loop of `bitmap_alloc`. -/
def skipFullBytesOn (len : Nat) (byteFull : BitVec 8) (byteIndex : Nat) : MapM Nat :=
  if byteIndex < len then do
    let byte ← load byteIndex
    if byte = byteFull then skipFullBytesOn len byteFull (byteIndex + 1)
    else return byteIndex
  else return byteIndex
termination_by len - byteIndex

/-- The inner loop of `bitmap_alloc`. -/
def countBitsOn (len value cnt bitIndex freeBits : Nat) : MapM (Option Nat) :=
  if freeBits < cnt then do
    match ← bitmapScanTestOn len (bitIndex + freeBits) with
    | none => return none
    | some currentBit =>
        if currentBit ∧ value = 0 then return some freeBits
        else if ¬ currentBit ∧ value = 1 then return some freeBits
        else countBitsOn len value cnt bitIndex (freeBits + 1)
  else return some freeBits
termination_by cnt - freeBits

/-- The outer loop of `bitmap_alloc`. -/
def searchBitsOn (len value cnt bitIndex : Nat) : MapM (Except Status Nat) :=
  if bitIndex < len * 8 then do
    match ← countBitsOn len value cnt bitIndex 0 with
    | none => return .error .kError
    | some freeBits =>
        if freeBits = cnt then return .ok (bitIndex % 2 ^ 32)
        else searchBitsOn len value cnt (bitIndex + freeBits + 1)
  else return .error .kOutOfResource
termination_by len * 8 - bitIndex

/-- `bitmap_alloc` on the memory behind the map pointer. -/
def bitmapAllocOn (len value cnt : Nat) : MapM (Except Status Nat) :=
  if value ≠ 0 ∧ value ≠ 1 then return .error .kInvalidParam
  else do
    let byteFull : BitVec 8 := if value = 0 then 0xff#8 else 0#8
    let byteIndex ← skipFullBytesOn len byteFull 0
    if byteIndex ≥ len then return .error .kOutOfResource
    else searchBitsOn len value cnt (byteIndex * 8)

/-! ## What it touches -/

/-- The memory holds the bytes of the map that are in use. Nothing is said of any other
address. -/
def MappedIn (b : Bitmap capacity) (mem : MapMemory) : Prop :=
  ∀ i (h : i < b.btmpBytesLen), mem i = some (b.byte i h)

/-- The bytes in use and nothing else. -/
def memory (b : Bitmap capacity) : MapMemory :=
  fun i => if h : i < b.btmpBytesLen then some (b.byte i h) else none

theorem mappedIn_memory (b : Bitmap capacity) : b.MappedIn b.memory := by
  intro i h
  rw [memory, dif_pos h]

namespace MappedIn

variable {b : Bitmap capacity} {mem : MapMemory}

theorem load (h : b.MappedIn mem) {i : Nat} (hi : i < b.btmpBytesLen) :
    (Bitmap.load i).run mem = some (b.byte i hi, mem) := by
  simp only [Bitmap.load, StateT.run, h i hi, Option.map_some]

theorem bitmapScanTestOn (h : b.MappedIn mem) (bitIndex : Nat) :
    (Bitmap.bitmapScanTestOn b.btmpBytesLen bitIndex).run mem =
      some (bitmapScanTest b bitIndex, mem) := by
  by_cases hin : bitIndex / 8 < b.btmpBytesLen
  · rw [Bitmap.bitmapScanTestOn, if_neg (Nat.not_le.mpr hin), bitmapScanTest, dif_pos hin,
      StateT.run_bind, h.load hin]
    rfl
  · rw [Bitmap.bitmapScanTestOn, if_pos (Nat.le_of_not_lt hin), bitmapScanTest, dif_neg hin]
    rfl

theorem skipFullBytesOn (h : b.MappedIn mem) (byteFull : BitVec 8) (byteIndex : Nat) :
    (Bitmap.skipFullBytesOn b.btmpBytesLen byteFull byteIndex).run mem =
      some (skipFullBytes b byteFull byteIndex, mem) := by
  fun_induction skipFullBytes b byteFull byteIndex with
  | case1 byteIndex hlt hfull ih =>
      rw [Bitmap.skipFullBytesOn, if_pos hlt, StateT.run_bind, h.load hlt, ← ih]
      simp [hfull]
  | case2 byteIndex hlt hfull =>
      rw [Bitmap.skipFullBytesOn, if_pos hlt, StateT.run_bind, h.load hlt]
      simp [hfull]
  | case3 byteIndex hge =>
      rw [Bitmap.skipFullBytesOn, if_neg hge]
      rfl

theorem countBitsOn (h : b.MappedIn mem) (value cnt bitIndex freeBits : Nat) :
    (Bitmap.countBitsOn b.btmpBytesLen value cnt bitIndex freeBits).run mem =
      some (countBits b value cnt bitIndex freeBits, mem) := by
  fun_induction countBits b value cnt bitIndex freeBits with
  | case1 freeBits hlt hscan =>
      rw [Bitmap.countBitsOn, if_pos hlt, StateT.run_bind, h.bitmapScanTestOn, hscan]
      rfl
  | case2 freeBits hlt cur hscan hmiss =>
      rw [Bitmap.countBitsOn, if_pos hlt, StateT.run_bind, h.bitmapScanTestOn, hscan]
      simp [hmiss]
  | case3 freeBits hlt cur hscan hmiss hmiss' =>
      rw [Bitmap.countBitsOn, if_pos hlt, StateT.run_bind, h.bitmapScanTestOn, hscan]
      simp [hmiss']
  | case4 freeBits hlt cur hscan hmiss hmiss' ih =>
      rw [Bitmap.countBitsOn, if_pos hlt, StateT.run_bind, h.bitmapScanTestOn, hscan, ← ih]
      simp only [Option.bind_eq_bind, Option.bind_some, if_neg hmiss, if_neg hmiss']
  | case5 freeBits hge =>
      rw [Bitmap.countBitsOn, if_neg hge]
      rfl

theorem searchBitsOn (h : b.MappedIn mem) (value cnt bitIndex : Nat) :
    (Bitmap.searchBitsOn b.btmpBytesLen value cnt bitIndex).run mem =
      some (searchBits b value cnt bitIndex, mem) := by
  fun_induction searchBits b value cnt bitIndex with
  | case1 bitIndex hlt hcount =>
      rw [Bitmap.searchBitsOn, if_pos hlt, StateT.run_bind, h.countBitsOn, hcount]
      rfl
  | case2 bitIndex hlt hcount =>
      rw [Bitmap.searchBitsOn, if_pos hlt, StateT.run_bind, h.countBitsOn, hcount]
      simp
  | case3 bitIndex hlt k hcount hne ih =>
      rw [Bitmap.searchBitsOn, if_pos hlt, StateT.run_bind, h.countBitsOn, hcount, ← ih]
      simp only [Option.bind_eq_bind, Option.bind_some, if_neg hne]
  | case4 bitIndex hge =>
      rw [Bitmap.searchBitsOn, if_neg hge]
      rfl

/-- The search loads bytes in use only, whatever is mapped elsewhere, and stores nothing. -/
theorem bitmapAllocOn (h : b.MappedIn mem) (value cnt : Nat) :
    (Bitmap.bitmapAllocOn b.btmpBytesLen value cnt).run mem =
      some (bitmapAlloc b value cnt, mem) := by
  by_cases hvalid : value ≠ 0 ∧ value ≠ 1
  · rw [Bitmap.bitmapAllocOn, if_pos hvalid, bitmapAlloc, if_pos hvalid]
    rfl
  · rw [Bitmap.bitmapAllocOn, if_neg hvalid, bitmapAlloc, if_neg hvalid, StateT.run_bind,
      h.skipFullBytesOn]
    dsimp only [Option.bind_eq_bind, Option.bind_some]
    by_cases hall : skipFullBytes b (if value = 0 then 0xff#8 else 0#8) 0 ≥ b.btmpBytesLen
    · rw [if_pos hall, if_pos hall]
      rfl
    · rw [if_neg hall, if_neg hall, h.searchBitsOn]

end MappedIn

/-! ## What it returns -/

/-- The search that tries every index of the map in turn and tests every bit of the run
from there. -/
def firstFit (b : Bitmap capacity) (value cnt : Nat) : Option Nat :=
  (List.range (b.btmpBytesLen * 8)).find? fun start =>
    (List.range cnt).all fun k => decide (b.HasBit value (start + k))

theorem run_iff (b : Bitmap capacity) (value cnt start : Nat) :
    Run (b.HasBit value) start cnt ↔ ∀ k < cnt, b.HasBit value (start + k) := by
  constructor
  · intro hrun k hk
    exact hrun (start + k) (by omega) (by omega)
  · intro hall i hle hlt
    have hbit := hall (i - start) (by omega)
    rwa [Nat.add_sub_cancel' hle] at hbit

theorem all_hasBit_iff (b : Bitmap capacity) (value cnt start : Nat) :
    (List.range cnt).all (fun k => decide (b.HasBit value (start + k))) = true ↔
      Run (b.HasBit value) start cnt := by
  simp only [List.all_eq_true, List.mem_range, decide_eq_true_eq, run_iff]

/-- A run of matching bits starts inside the map. -/
theorem lt_of_run {b : Bitmap capacity} {value cnt start : Nat} (hcnt : 1 ≤ cnt)
    (hrun : Run (b.HasBit value) start cnt) : start < b.btmpBytesLen * 8 :=
  (hrun start le_rfl (by omega)).lt

theorem firstFit_eq_none_iff (b : Bitmap capacity) (value : Nat) {cnt : Nat} (hcnt : 1 ≤ cnt) :
    b.firstFit value cnt = none ↔ ∀ start, ¬ Run (b.HasBit value) start cnt := by
  rw [firstFit, List.find?_eq_none]
  simp only [List.mem_range, all_hasBit_iff]
  exact ⟨fun h start hrun => h start (lt_of_run hcnt hrun) hrun, fun h start _ => h start⟩

theorem firstFit_eq_some_iff (b : Bitmap capacity) (value : Nat) {cnt index : Nat}
    (hcnt : 1 ≤ cnt) :
    b.firstFit value cnt = some index ↔ IsFirstRun (b.HasBit value) cnt index := by
  rw [firstFit, List.find?_range_eq_some]
  simp only [Bool.not_eq_true', ← Bool.not_eq_true, all_hasBit_iff, List.mem_range]
  constructor
  · rintro ⟨hrun, -, hlowest⟩
    exact ⟨hrun, hlowest⟩
  · intro hfirst
    exact ⟨hfirst.run, lt_of_run hcnt hfirst.run, hfirst.lowest⟩

/-- The search of the code and the one that tries every index return the same. -/
theorem toOption_bitmapAlloc (b : Bitmap capacity) {value cnt : Nat}
    (hvalue : value = 0 ∨ value = 1) (hlen : b.btmpBytesLen ≤ 2 ^ 29 - 1) (hcnt : 1 ≤ cnt) :
    (bitmapAlloc b value cnt).toOption = b.firstFit value cnt := by
  have hspec := bitmapAlloc_spec b hvalue (by omega) hcnt
  cases hrun : bitmapAlloc b value cnt with
  | ok index =>
      rw [hrun] at hspec
      exact ((firstFit_eq_some_iff b value hcnt).mpr hspec).symm
  | error status =>
      rw [hrun] at hspec
      exact ((firstFit_eq_none_iff b value hcnt).mpr hspec).symm

/-- `bitmap_alloc` on any memory that holds the map loads no byte outside the map and stores
nothing, succeeds exactly when there is a run, and returns what the plain search returns: the
lowest index at which a run starts. -/
theorem bitmapAllocOn_firstFit (b : Bitmap capacity) {mem : MapMemory} (hmem : b.MappedIn mem)
    {value cnt : Nat} (hvalue : value = 0 ∨ value = 1) (hlen : b.btmpBytesLen ≤ 2 ^ 29 - 1)
    (hcnt : 1 ≤ cnt) :
    ∃ result : Except Status Nat,
      (bitmapAllocOn b.btmpBytesLen value cnt).run mem = some (result, mem) ∧
      result.toOption = b.firstFit value cnt ∧
      ((∃ index, result = .ok index) ↔ ∃ start, ∀ k < cnt, b.HasBit value (start + k)) ∧
      ∀ index, result = .ok index → IsFirstRun (b.HasBit value) cnt index := by
  have hspec := bitmapAlloc_spec b hvalue (by omega) hcnt
  refine ⟨_, hmem.bitmapAllocOn value cnt, toOption_bitmapAlloc b hvalue hlen hcnt, ?_, ?_⟩
  · simp only [← run_iff]
    cases hrun : bitmapAlloc b value cnt with
    | ok index =>
        rw [hrun] at hspec
        exact iff_of_true ⟨index, rfl⟩ ⟨index, hspec.run⟩
    | error status =>
        rw [hrun] at hspec
        refine iff_of_false ?_ fun ⟨start, hstart⟩ => hspec start hstart
        rintro ⟨index, heq⟩
        cases heq
  · intro index hrun
    rwa [hrun] at hspec

/-- A full byte, one with the bits 3, 5 and 6 clear, and one that is not in use. -/
def twoBytes : Bitmap 3 := ⟨2, #v[0xff#8, 0x97#8, 0x00#8], by decide⟩

/-- The two clear bits in the second byte are found, and one clear bit more is not. -/
theorem bitmapAllocOn_firstFit_twoBytes :
    (∃ result : Except Status Nat,
      (bitmapAllocOn 2 0 2).run twoBytes.memory = some (result, twoBytes.memory) ∧
      result.toOption = some 13) ∧
    ∃ result : Except Status Nat,
      (bitmapAllocOn 2 0 3).run twoBytes.memory = some (result, twoBytes.memory) ∧
      result.toOption = none := by
  constructor
  · obtain ⟨result, hrun, hfit, -⟩ := @bitmapAllocOn_firstFit 3 twoBytes _
      (mappedIn_memory twoBytes) 0 2 (Or.inl rfl) (by decide) (by decide)
    exact ⟨result, hrun, hfit.trans (by decide)⟩
  · obtain ⟨result, hrun, hfit, -⟩ := @bitmapAllocOn_firstFit 3 twoBytes _
      (mappedIn_memory twoBytes) 0 3 (Or.inl rfl) (by decide) (by decide)
    exact ⟨result, hrun, hfit.trans (by decide)⟩

end Bitmap

end ClayFigure
