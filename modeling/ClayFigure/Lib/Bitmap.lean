/-
# The bitmap of `lib/bitmap.c`

`bitmapAlloc` is a first-fit search that skips whole bytes, then jumps behind
every mismatching bit. Its specification is stated against the abstract notion
of a first run of positions; the byte layout does not appear in it.
-/

import ClayFigure.Kernel.Global
import ClayFigure.Math.BitRun

namespace ClayFigure

open ClayFigure.Math

/-- `bitmap_t`: the bytes of the map and how many of them are in use. The bound
is what the map pointer promises to every caller. -/
structure Bitmap (capacity : Nat) where
  btmpBytesLen : Nat
  map : Vector (BitVec 8) capacity
  len_le : btmpBytesLen ≤ capacity

namespace Bitmap

variable {capacity : Nat}

/-- Read one byte of the map. The bound is a proof argument, so no search can
read a byte outside the bytes in use. -/
def byte (b : Bitmap capacity) (i : Nat) (h : i < b.btmpBytesLen) : BitVec 8 :=
  b.map.get ⟨i, h.trans_le b.len_le⟩

/-- Overwrite one byte of the map. -/
def setByte (b : Bitmap capacity) (i : Nat) (h : i < b.btmpBytesLen)
    (v : BitVec 8) : Bitmap capacity :=
  { b with map := b.map.set i v (h.trans_le b.len_le) }

/-- `init_bitmap`: clear the bytes in use. -/
def initBitmap (b : Bitmap capacity) : Bitmap capacity :=
  { b with map := Vector.ofFn fun i =>
      if i.val < b.btmpBytesLen then 0#8 else b.map.get i }

/-- `bitmap_scan_test`; `none` is the return value -1 of an index outside the
map. -/
def bitmapScanTest (b : Bitmap capacity) (bitIndex : Nat) : Option Bool :=
  if h : bitIndex / 8 < b.btmpBytesLen then
    some (decide (b.byte (bitIndex / 8) h &&& (1#8 <<< (bitIndex % 8)) ≠ 0#8))
  else
    none

/-- The first loop of `bitmap_alloc`: skip the bytes without a matching bit. -/
def skipFullBytes (b : Bitmap capacity) (byteFull : BitVec 8) (byteIndex : Nat) : Nat :=
  if h : byteIndex < b.btmpBytesLen then
    if b.byte byteIndex h = byteFull then skipFullBytes b byteFull (byteIndex + 1)
    else byteIndex
  else
    byteIndex
termination_by b.btmpBytesLen - byteIndex

/-- The inner loop of `bitmap_alloc`: count matching bits up to `cnt`; `none` is
the early return of `K_ERROR` at the end of the map. -/
def countBits (b : Bitmap capacity) (value cnt bitIndex freeBits : Nat) : Option Nat :=
  if freeBits < cnt then
    match bitmapScanTest b (bitIndex + freeBits) with
    | none => none
    | some currentBit =>
        if currentBit ∧ value = 0 then some freeBits
        else if ¬ currentBit ∧ value = 1 then some freeBits
        else countBits b value cnt bitIndex (freeBits + 1)
  else
    some freeBits
termination_by cnt - freeBits

/-- The outer loop of `bitmap_alloc`. The index leaves through a `uint32_t`. -/
def searchBits (b : Bitmap capacity) (value cnt bitIndex : Nat) : Except Status Nat :=
  if bitIndex < b.btmpBytesLen * 8 then
    match countBits b value cnt bitIndex 0 with
    | none => .error .kError
    | some freeBits =>
        if freeBits = cnt then .ok (bitIndex % 2 ^ 32)
        else searchBits b value cnt (bitIndex + freeBits + 1)
  else
    .error .kOutOfResource
termination_by b.btmpBytesLen * 8 - bitIndex

/-- `bitmap_alloc`; every caller passes a valid `index` pointer. -/
def bitmapAlloc (b : Bitmap capacity) (value cnt : Nat) : Except Status Nat :=
  if value ≠ 0 ∧ value ≠ 1 then .error .kInvalidParam
  else
    let byteFull : BitVec 8 := if value = 0 then 0xff#8 else 0#8
    let byteIndex := skipFullBytes b byteFull 0
    if byteIndex ≥ b.btmpBytesLen then .error .kOutOfResource
    else searchBits b value cnt (byteIndex * 8)

/-- `bitmap_set`: an index outside the map or a value other than 0 and 1
changes nothing. -/
def bitmapSet (b : Bitmap capacity) (bitIndex value : Nat) : Bitmap capacity :=
  if h : bitIndex / 8 < b.btmpBytesLen then
    let old := b.byte (bitIndex / 8) h
    match value with
    | 0 => b.setByte (bitIndex / 8) h (old &&& ~~~(1#8 <<< (bitIndex % 8)))
    | 1 => b.setByte (bitIndex / 8) h (old ||| (1#8 <<< (bitIndex % 8)))
    | _ => b
  else
    b

/-- The loops of `page.c` that set `count` consecutive bits, in ascending order. -/
def setBits (b : Bitmap capacity) (start : Nat) : Nat → Nat → Bitmap capacity
  | 0, _ => b
  | count + 1, value => bitmapSet (setBits b start count value) (start + count) value

/-! ## Bits -/

/-- Bit `i` lies inside the map and equals `value`. -/
def HasBit (b : Bitmap capacity) (value i : Nat) : Prop :=
  bitmapScanTest b i = some (decide (value = 1))

instance (b : Bitmap capacity) (value i : Nat) : Decidable (b.HasBit value i) :=
  inferInstanceAs (Decidable (_ = _))

/-- Masking with a one-bit mask reads that bit. -/
private theorem and_mask_ne_zero (x : BitVec 8) {k : Nat} (hk : k < 8) :
    x &&& (1#8 <<< k) ≠ 0#8 ↔ x.getLsbD k = true := by
  have hpow : (1#8 <<< k) = BitVec.twoPow 8 k := rfl
  have hne : BitVec.twoPow 8 k ≠ 0#8 := by
    intro hzero
    have hbit := congrArg (fun y => y.getLsbD k) hzero
    simp [hk] at hbit
  rw [hpow, BitVec.and_twoPow]
  cases x.getLsbD k <;> simp [hne]

theorem bitmapScanTest_of_lt (b : Bitmap capacity) {i : Nat}
    (h : i / 8 < b.btmpBytesLen) :
    bitmapScanTest b i = some ((b.byte (i / 8) h).getLsbD (i % 8)) := by
  simp [bitmapScanTest, h, and_mask_ne_zero _ (Nat.mod_lt i (by decide : 8 > 0))]

theorem bitmapScanTest_of_ge (b : Bitmap capacity) {i : Nat}
    (h : b.btmpBytesLen ≤ i / 8) : bitmapScanTest b i = none := by
  simp [bitmapScanTest, Nat.not_lt.mpr h]

theorem HasBit.lt {b : Bitmap capacity} {value i : Nat} (h : b.HasBit value i) :
    i < b.btmpBytesLen * 8 := by
  by_contra hge
  rw [HasBit, bitmapScanTest_of_ge b (by omega)] at h
  cases h

@[simp]
theorem bitmapSet_btmpBytesLen (b : Bitmap capacity) (i value : Nat) :
    (bitmapSet b i value).btmpBytesLen = b.btmpBytesLen := by
  unfold bitmapSet
  split
  · split <;> rfl
  · rfl

@[simp]
theorem setBits_btmpBytesLen (b : Bitmap capacity) (start count value : Nat) :
    (setBits b start count value).btmpBytesLen = b.btmpBytesLen := by
  induction count with
  | zero => rfl
  | succ count ih => rw [setBits, bitmapSet_btmpBytesLen, ih]

/-- Reading back after a byte has been overwritten. -/
theorem byte_setByte (b : Bitmap capacity) {i j : Nat} (hi : i < b.btmpBytesLen)
    (v : BitVec 8) (hj : j < (b.setByte i hi v).btmpBytesLen) :
    (b.setByte i hi v).byte j hj = if i = j then v else b.byte j hj := by
  have hi' := hi.trans_le b.len_le
  have hj' := hj.trans_le b.len_le
  show (b.map.set i v hi')[j] = if i = j then v else b.map[j]
  exact Vector.getElem_set hi' hj'

private theorem getLsbD_and_not_mask (x : BitVec 8) {k m : Nat} (hm : m < 8) :
    (x &&& ~~~(1#8 <<< k)).getLsbD m = if k = m then false else x.getLsbD m := by
  have hpow : (1#8 <<< k) = BitVec.twoPow 8 k := rfl
  rw [hpow]
  by_cases hkm : k = m
  · simp [hkm, hm]
  · simp [hkm, hm, Ne.symm hkm]

private theorem getLsbD_or_mask (x : BitVec 8) {k m : Nat} (hm : m < 8) :
    (x ||| (1#8 <<< k)).getLsbD m = if k = m then true else x.getLsbD m := by
  have hpow : (1#8 <<< k) = BitVec.twoPow 8 k := rfl
  rw [hpow]
  by_cases hkm : k = m
  · simp [hkm, hm]
  · simp [hkm, hm, Ne.symm hkm]

/-- The byte that `bitmap_set` writes, bit by bit. -/
private theorem getLsbD_byte_bitmapSet (b : Bitmap capacity) {i j value : Nat}
    (hvalue : value = 0 ∨ value = 1) (hi : i / 8 < b.btmpBytesLen)
    (hj : j / 8 < (bitmapSet b i value).btmpBytesLen) :
    ((bitmapSet b i value).byte (j / 8) hj).getLsbD (j % 8) =
      if i = j then decide (value = 1)
      else (b.byte (j / 8) (by simpa using hj)).getLsbD (j % 8) := by
  have hmod : j % 8 < 8 := Nat.mod_lt _ (by decide)
  have hsplit : i = j ↔ i / 8 = j / 8 ∧ i % 8 = j % 8 := by omega
  rcases hvalue with rfl | rfl
  · simp only [bitmapSet, hi, ↓reduceDIte, byte_setByte, hsplit]
    by_cases hbyte : i / 8 = j / 8
    · rw [if_pos hbyte, getLsbD_and_not_mask _ hmod]
      simp [hbyte]
    · simp [hbyte]
  · simp only [bitmapSet, hi, ↓reduceDIte, byte_setByte, hsplit]
    by_cases hbyte : i / 8 = j / 8
    · rw [if_pos hbyte, getLsbD_or_mask _ hmod]
      simp [hbyte]
    · simp [hbyte]

/-- `bitmap_set` of a bit inside the map sets this bit and no other. -/
theorem bitmapScanTest_bitmapSet (b : Bitmap capacity) {i value : Nat}
    (hvalue : value = 0 ∨ value = 1) (j : Nat) :
    bitmapScanTest (bitmapSet b i value) j =
      if i = j ∧ i < b.btmpBytesLen * 8 then some (decide (value = 1))
      else bitmapScanTest b j := by
  by_cases hi : i / 8 < b.btmpBytesLen
  · by_cases hj : j / 8 < b.btmpBytesLen
    · have hlt : i < b.btmpBytesLen * 8 := by omega
      have hj' : j / 8 < (bitmapSet b i value).btmpBytesLen := by simpa using hj
      rw [bitmapScanTest_of_lt b hj, bitmapScanTest_of_lt _ hj',
        getLsbD_byte_bitmapSet b hvalue hi hj']
      simp only [hlt, and_true]
      split <;> rfl
    · have hne : ¬ (i = j ∧ i < b.btmpBytesLen * 8) := by omega
      rw [if_neg hne, bitmapScanTest_of_ge b (Nat.le_of_not_lt hj),
        bitmapScanTest_of_ge _ (by simpa using hj)]
  · have hne : ¬ (i = j ∧ i < b.btmpBytesLen * 8) := by omega
    rw [if_neg hne]
    simp [bitmapSet, hi]

theorem hasBit_bitmapSet (b : Bitmap capacity) {i value : Nat}
    (hvalue : value = 0 ∨ value = 1) (j : Nat) :
    (bitmapSet b i value).HasBit 1 j ↔
      if i = j ∧ i < b.btmpBytesLen * 8 then value = 1 else b.HasBit 1 j := by
  unfold HasBit
  rw [bitmapScanTest_bitmapSet b hvalue]
  by_cases hij : i = j ∧ i < b.btmpBytesLen * 8
  · rw [if_pos hij, if_pos hij]
    simp
  · rw [if_neg hij, if_neg hij]

/-- The bit loops change the bits of their range inside the map and no other. -/
theorem hasBit_setBits (b : Bitmap capacity) (start count : Nat) {value : Nat}
    (hvalue : value = 0 ∨ value = 1) (j : Nat) :
    (setBits b start count value).HasBit 1 j ↔
      if start ≤ j ∧ j < start + count ∧ j < b.btmpBytesLen * 8 then value = 1
      else b.HasBit 1 j := by
  induction count with
  | zero =>
      have hempty : ¬ (start ≤ j ∧ j < start + 0 ∧ j < b.btmpBytesLen * 8) := by omega
      rw [if_neg hempty, setBits]
  | succ count ih =>
      rw [setBits, hasBit_bitmapSet _ hvalue, ih, setBits_btmpBytesLen]
      by_cases hlast : start + count = j ∧ start + count < b.btmpBytesLen * 8
      · have hin : start ≤ j ∧ j < start + (count + 1) ∧ j < b.btmpBytesLen * 8 := by omega
        rw [if_pos hlast, if_pos hin]
      · have hiff : (start ≤ j ∧ j < start + count ∧ j < b.btmpBytesLen * 8) ↔
            (start ≤ j ∧ j < start + (count + 1) ∧ j < b.btmpBytesLen * 8) := by omega
        rw [if_neg hlast]
        simp only [hiff]

/-- A fresh bitmap has no set bit. -/
@[simp]
theorem not_hasBit_initBitmap (b : Bitmap capacity) (i : Nat) :
    ¬ (initBitmap b).HasBit 1 i := by
  intro hbit
  have hlt : i / 8 < (initBitmap b).btmpBytesLen := by
    have := hbit.lt
    omega
  have hzero : (initBitmap b).byte (i / 8) hlt = 0#8 := by
    have hused : i / 8 < b.btmpBytesLen := hlt
    have hget (v : Vector (BitVec 8) capacity) (k : Fin capacity) : v.get k = v[k.val] := rfl
    simp only [byte, initBitmap, hget, Vector.getElem_ofFn, if_pos hused]
  rw [HasBit, bitmapScanTest_of_lt _ hlt, hzero] at hbit
  simp at hbit

/-- The positions of the set bits inside the map. -/
def freeBits (b : Bitmap capacity) : Finset Nat :=
  (Finset.range (b.btmpBytesLen * 8)).filter (b.HasBit 1)

@[simp]
theorem mem_freeBits {b : Bitmap capacity} {i : Nat} :
    i ∈ b.freeBits ↔ b.HasBit 1 i := by
  simp only [freeBits, Finset.mem_filter, Finset.mem_range, and_iff_right_iff_imp]
  exact HasBit.lt

/-- The bitmap with every byte of the array in use. -/
def whole (b : Bitmap capacity) : Bitmap capacity :=
  { b with btmpBytesLen := capacity, len_le := le_rfl }

theorem hasBit_whole (b : Bitmap capacity) {value i : Nat} :
    b.HasBit value i ↔ i < b.btmpBytesLen * 8 ∧ b.whole.HasBit value i := by
  by_cases hi : i / 8 < b.btmpBytesLen
  · have hcap : i / 8 < b.whole.btmpBytesLen := hi.trans_le b.len_le
    have hlt : i < b.btmpBytesLen * 8 := by omega
    rw [HasBit, HasBit, bitmapScanTest_of_lt b hi, bitmapScanTest_of_lt _ hcap]
    exact (and_iff_right hlt).symm
  · have hge : ¬ i < b.btmpBytesLen * 8 := by omega
    exact ⟨fun h => absurd h.lt hge, fun h => absurd h.1 hge⟩

/-- The bytes behind those in use are never written. -/
theorem whole_bitmapSet (b : Bitmap capacity) (i value : Nat) :
    (bitmapSet b i value).whole =
      if i / 8 < b.btmpBytesLen then bitmapSet b.whole i value else b.whole := by
  by_cases hi : i / 8 < b.btmpBytesLen
  · have hcap : i / 8 < b.whole.btmpBytesLen := hi.trans_le b.len_le
    rw [if_pos hi, bitmapSet, bitmapSet, dif_pos hi, dif_pos hcap]
    split <;> rfl
  · rw [if_neg hi, bitmapSet, dif_neg hi]

theorem hasBit_whole_setBits (b : Bitmap capacity) (start count : Nat) {value : Nat}
    (hvalue : value = 0 ∨ value = 1) (j : Nat) :
    (setBits b start count value).whole.HasBit 1 j ↔
      if start ≤ j ∧ j < start + count ∧ j < b.btmpBytesLen * 8 then value = 1
      else b.whole.HasBit 1 j := by
  by_cases hj : j < b.btmpBytesLen * 8
  · have hset := hasBit_setBits b start count hvalue j
    rw [hasBit_whole, hasBit_whole b, setBits_btmpBytesLen] at hset
    simpa only [hj, true_and] using hset
  · -- No iteration of the loop reaches a byte that is not in use.
    rw [if_neg (by omega)]
    induction count with
    | zero => rfl
    | succ count ih =>
        rw [setBits, whole_bitmapSet, setBits_btmpBytesLen]
        by_cases hlast : (start + count) / 8 < b.btmpBytesLen
        · rw [if_pos hlast, hasBit_bitmapSet _ hvalue, if_neg (by omega), ih]
        · rw [if_neg hlast, ih]

/-- A bitmap is known by its length and by its bits, those of the bytes that are not in use
included. -/
theorem ext_whole {b c : Bitmap capacity} (hlen : b.btmpBytesLen = c.btmpBytesLen)
    (hbit : ∀ i, b.whole.HasBit 1 i ↔ c.whole.HasBit 1 i) : b = c := by
  have hmap : b.map = c.map := by
    refine Vector.ext fun i hi => BitVec.eq_of_getLsbD_eq fun k hk => ?_
    have hdiv : (8 * i + k) / 8 = i := by omega
    have hmod : (8 * i + k) % 8 = k := by omega
    have hlt : (8 * i + k) / 8 < capacity := hdiv.trans_lt hi
    have hsame := hbit (8 * i + k)
    have hread (d : Bitmap capacity) :
        d.whole.HasBit 1 (8 * i + k) ↔ d.map[i].getLsbD k = true := by
      have hbyte : d.whole.byte ((8 * i + k) / 8) hlt = d.map[i] := by
        change d.map[(8 * i + k) / 8] = d.map[i]
        simp only [hdiv]
      rw [HasBit, bitmapScanTest_of_lt d.whole hlt, hbyte, hmod]
      simp
    rw [hread, hread] at hsame
    exact Bool.eq_iff_iff.mpr hsame
  cases b
  cases c
  simp only at hlen hmap
  subst hlen hmap
  rfl

/-! ## The search -/

theorem not_hasBit_iff {b : Bitmap capacity} {value i : Nat}
    (hvalue : value = 0 ∨ value = 1) {cur : Bool}
    (hscan : bitmapScanTest b i = some cur) :
    ¬ b.HasBit value i ↔ (cur ∧ value = 0) ∨ (¬ cur ∧ value = 1) := by
  unfold HasBit
  rw [hscan]
  rcases hvalue with rfl | rfl <;> cases cur <;> simp

private theorem getLsbD_full : ∀ m : Fin 8, (0xff#8).getLsbD m = true := by decide

/-- No skipped byte holds a matching bit. -/
theorem skipFullBytes_spec (b : Bitmap capacity) {value : Nat}
    (hvalue : value = 0 ∨ value = 1) (byteIndex : Nat)
    (hbelow : ∀ i, i < byteIndex * 8 → ¬ b.HasBit value i) :
    ∀ i, i < skipFullBytes b (if value = 0 then 0xff#8 else 0#8) byteIndex * 8 →
      ¬ b.HasBit value i := by
  fun_induction skipFullBytes b (if value = 0 then 0xff#8 else 0#8) byteIndex with
  | case1 byteIndex hlt hfull ih =>
      refine ih fun i hi => ?_
      by_cases hold : i < byteIndex * 8
      · exact hbelow i hold
      · have hdiv : i / 8 = byteIndex := by omega
        subst hdiv
        rw [not_hasBit_iff hvalue (bitmapScanTest_of_lt b hlt), hfull]
        have hmod : i % 8 < 8 := Nat.mod_lt _ (by decide)
        rcases hvalue with rfl | rfl
        · exact Or.inl ⟨getLsbD_full ⟨i % 8, hmod⟩, rfl⟩
        · exact Or.inr ⟨by simp, rfl⟩
  | case2 byteIndex hlt hfull => exact hbelow
  | case3 byteIndex hge => exact hbelow

/-- What the inner loop reports about the bits it has counted. -/
theorem countBits_spec (b : Bitmap capacity) (cnt : Nat) {value : Nat}
    (hvalue : value = 0 ∨ value = 1) (bitIndex freeBits : Nat)
    (hle : freeBits ≤ cnt) (hrun : Run (b.HasBit value) bitIndex freeBits) :
    match countBits b value cnt bitIndex freeBits with
    | none => ∃ k < cnt, b.btmpBytesLen * 8 ≤ bitIndex + k
    | some k => k ≤ cnt ∧ Run (b.HasBit value) bitIndex k ∧
        (k < cnt → ¬ b.HasBit value (bitIndex + k)) := by
  fun_induction countBits b value cnt bitIndex freeBits with
  | case1 freeBits hlt hscan =>
      refine ⟨freeBits, hlt, ?_⟩
      by_contra hin
      rw [bitmapScanTest_of_lt b (by omega)] at hscan
      cases hscan
  | case2 freeBits hlt cur hscan hmiss =>
      exact ⟨hle, hrun, fun _ => (not_hasBit_iff hvalue hscan).mpr (Or.inl hmiss)⟩
  | case3 freeBits hlt cur hscan hmiss hmiss' =>
      exact ⟨hle, hrun, fun _ => (not_hasBit_iff hvalue hscan).mpr (Or.inr hmiss')⟩
  | case4 freeBits hlt cur hscan hmiss hmiss' ih =>
      refine ih (by omega) (hrun.succ ?_)
      by_contra hbit
      exact ((not_hasBit_iff hvalue hscan).mp hbit).elim hmiss hmiss'
  | case5 freeBits hge => exact ⟨hle, hrun, fun h => absurd h hge⟩

theorem searchBits_spec (b : Bitmap capacity) {value cnt : Nat}
    (hvalue : value = 0 ∨ value = 1) (hlen : b.btmpBytesLen * 8 ≤ 2 ^ 32)
    (hcnt : 0 < cnt) (bitIndex : Nat)
    (hbelow : ∀ s, s < bitIndex → ¬ Run (b.HasBit value) s cnt) :
    match searchBits b value cnt bitIndex with
    | .ok index => IsFirstRun (b.HasBit value) cnt index
    | .error _ => ∀ s, ¬ Run (b.HasBit value) s cnt := by
  have hpast (s : Nat) (hs : b.btmpBytesLen * 8 < s + cnt) :
      ¬ Run (b.HasBit value) s cnt := by
    intro hrun
    have := (hrun (s + cnt - 1) (by omega) (by omega)).lt
    omega
  fun_induction searchBits b value cnt bitIndex with
  | case1 bitIndex hlt hcount =>
      have hspec := countBits_spec b cnt hvalue bitIndex 0 (by omega) (by simp)
      rw [hcount] at hspec
      obtain ⟨k, hk, hend⟩ := hspec
      intro s
      by_cases hs : s < bitIndex
      · exact hbelow s hs
      · exact hpast s (by omega)
  | case2 bitIndex hlt hcount =>
      have hspec := countBits_spec b cnt hvalue bitIndex 0 (by omega) (by simp)
      rw [hcount] at hspec
      have hmod : bitIndex % 2 ^ 32 = bitIndex := Nat.mod_eq_of_lt (by omega)
      rw [hmod]
      exact ⟨hspec.2.1, hbelow⟩
  | case3 bitIndex hlt k hcount hne ih =>
      have hspec := countBits_spec b cnt hvalue bitIndex 0 (by omega) (by simp)
      rw [hcount] at hspec
      obtain ⟨hle, -, hmiss⟩ := hspec
      have hk : k < cnt := by omega
      exact ih (Run.excluded_past hbelow hk (hmiss hk))
  | case4 bitIndex hge =>
      intro s
      by_cases hs : s < bitIndex
      · exact hbelow s hs
      · exact hpast s (by omega)

/-- `bitmap_alloc` is the bit-by-bit first-fit search: it returns the lowest run
of `cnt` equal bits, and fails exactly when there is none. -/
theorem bitmapAlloc_spec (b : Bitmap capacity) {value cnt : Nat}
    (hvalue : value = 0 ∨ value = 1) (hlen : b.btmpBytesLen * 8 ≤ 2 ^ 32)
    (hcnt : 0 < cnt) :
    match bitmapAlloc b value cnt with
    | .ok index => IsFirstRun (b.HasBit value) cnt index
    | .error _ => ∀ s, ¬ Run (b.HasBit value) s cnt := by
  have hvalid : ¬ (value ≠ 0 ∧ value ≠ 1) := by omega
  have hskip := skipFullBytes_spec b hvalue 0 (by omega)
  simp only [bitmapAlloc, hvalid, if_false]
  set byteIndex := skipFullBytes b (if value = 0 then 0xff#8 else 0#8) 0
  have hstart (s : Nat) (hs : s < byteIndex * 8) : ¬ Run (b.HasBit value) s cnt :=
    Run.not_of_mem (hskip s hs) le_rfl (by omega)
  by_cases hall : byteIndex ≥ b.btmpBytesLen
  · simp only [hall, if_true]
    intro s hrun
    have := (hrun s le_rfl (by omega)).lt
    exact hskip s (by omega) (hrun s le_rfl (by omega))
  · simp only [hall, if_false]
    exact searchBits_spec b hvalue hlen hcnt _ hstart

end Bitmap

end ClayFigure
