/-
# Bytes in memory

`memset` and `memcpy` of `lib/string.c` on an address space of 2^64 bytes, as the loops they
are. A store keeps, next to the bytes, the addresses stored to, so that "writes only there" is
a statement about every single byte that the code stores.
-/

import ClayFigure.Kernel.Global

namespace ClayFigure

/-- The byte at each 64-bit address. -/
abbrev AddrSpace : Type := Nat → Byte

/-- Memory, and the addresses stored to since a code started, the latest first. -/
structure Store where
  mem : AddrSpace
  stored : List Nat

namespace Store

/-- One byte stored through a pointer. -/
def put (s : Store) (a : Nat) (b : Byte) : Store where
  mem x := if x = a then b else s.mem x
  stored := a :: s.stored

/-- `memset`. -/
def memset (s : Store) (dst value : Nat) : Nat → Store
  | 0 => s
  | size + 1 => (s.put dst (UInt8.ofNat value)).memset (add64 dst 1) value size

/-- `memcpy`. -/
def memcpy (s : Store) (dst src : Nat) : Nat → Store
  | 0 => s
  | size + 1 => (s.put dst (s.mem src)).memcpy (add64 dst 1) (add64 src 1) size

end Store

/-! ## Distances -/

/-- The distance from the next address is one less, from that address on. -/
theorem sub64_add64_one {a b : Nat} (ha : a < wordSize) (hb : b < wordSize) (hne : a ≠ b) :
    sub64 a (add64 b 1) + 1 = sub64 a b := by
  unfold sub64 add64 wordSize at *
  omega

theorem sub64_add64_one_self (a : Nat) : sub64 a (add64 a 1) = wordSize - 1 := by
  unfold sub64 add64 wordSize at *
  omega

theorem sub64_self (a : Nat) : sub64 a a = 0 := by
  unfold sub64 wordSize at *
  omega

/-- A range is its first address and the range behind it. -/
theorem sub64_lt_succ {a b n : Nat} (ha : a < wordSize) (hb : b < wordSize) :
    sub64 a b < n + 1 ↔ a = b ∨ sub64 a (add64 b 1) < n := by
  by_cases hab : a = b
  · subst hab
    rw [sub64_self]
    exact ⟨fun _ => Or.inl rfl, fun _ => Nat.succ_pos n⟩
  · have hstep := sub64_add64_one ha hb hab
    constructor
    · intro h
      exact Or.inr (by omega)
    · rintro (h | h)
      · exact absurd h hab
      · omega

theorem sub64_add64 {b d : Nat} (hb : b < wordSize) (hd : d < wordSize) :
    sub64 (add64 b d) b = d := by
  unfold sub64 add64 wordSize at *
  omega

theorem add64_add64 (a d e : Nat) : add64 (add64 a d) e = add64 a (d + e) := by
  unfold add64 wordSize
  omega

theorem add64_succ (a d : Nat) : add64 a (d + 1) = add64 (add64 a 1) d := by
  rw [add64_add64, Nat.add_comm]

/-- A range that starts inside of another one, by distances from the start of the other. -/
theorem sub64_add64_lt {a b off m : Nat} (ha : a < wordSize) (hb : b < wordSize)
    (hoff : off + m ≤ wordSize) :
    sub64 a (add64 b off) < m ↔ off ≤ sub64 a b ∧ sub64 a b < off + m := by
  unfold sub64 add64 wordSize at *
  omega

/-- A range stays within the first bytes behind `b` exactly if it is empty or ends there. -/
theorem range_inside_iff {b off m size : Nat} (hb : b < wordSize) (hoff : off < wordSize)
    (hsize : size < wordSize) :
    (∀ a < wordSize, sub64 a (add64 b off) < m → sub64 a b < size) ↔
      m = 0 ∨ off + m ≤ size := by
  constructor
  · intro h
    by_contra hnot
    rw [not_or, Nat.not_le] at hnot
    -- the first byte of the range that lies behind the others
    have hx : max off size < wordSize := max_lt hoff hsize
    have hplace : add64 b (max off size) = add64 (add64 b off) (max off size - off) := by
      rw [add64_add64, Nat.add_sub_cancel' (le_max_left _ _)]
    have hrange : sub64 (add64 b (max off size)) (add64 b off) < m := by
      rw [hplace, sub64_add64 (add64_lt b off) (by omega)]
      omega
    have hin := h _ (add64_lt b _) hrange
    rw [sub64_add64 hb hx] at hin
    exact absurd (le_max_right off size) (Nat.not_le.mpr hin)
  · rintro (rfl | hfit) a ha hin
    · exact absurd hin (Nat.not_lt_zero _)
    · exact ((sub64_add64_lt ha hb (hfit.trans hsize.le)).mp hin).2.trans_le hfit

namespace Store

/-! ## What a loop stores to -/

@[simp]
theorem put_mem (s : Store) (a : Nat) (b : Byte) (x : Nat) :
    (s.put a b).mem x = if x = a then b else s.mem x :=
  rfl

@[simp]
theorem put_stored (s : Store) (a : Nat) (b : Byte) : (s.put a b).stored = a :: s.stored :=
  rfl

/-- One byte and the range behind it. -/
theorem stored_succ {a dst size : Nat} {stored : List Nat} (hdst : dst < wordSize) :
    (a < wordSize ∧ sub64 a (add64 dst 1) < size) ∨ a = dst ∨ a ∈ stored ↔
      (a < wordSize ∧ sub64 a dst < size + 1) ∨ a ∈ stored := by
  by_cases ha : a < wordSize
  · rw [sub64_lt_succ ha hdst]
    tauto
  · have hne : a ≠ dst := by
      rintro rfl
      exact ha hdst
    tauto

theorem memset_stored (s : Store) (value size : Nat) {a dst : Nat} (hdst : dst < wordSize) :
    a ∈ (s.memset dst value size).stored ↔
      (a < wordSize ∧ sub64 a dst < size) ∨ a ∈ s.stored := by
  induction size generalizing s dst with
  | zero => simp only [memset, Nat.not_lt_zero, and_false, false_or]
  | succ size ih =>
      rw [memset, ih _ (add64_lt dst 1), put_stored, List.mem_cons]
      exact stored_succ hdst

theorem memcpy_stored (s : Store) (size : Nat) {a dst src : Nat} (hdst : dst < wordSize) :
    a ∈ (s.memcpy dst src size).stored ↔
      (a < wordSize ∧ sub64 a dst < size) ∨ a ∈ s.stored := by
  induction size generalizing s dst src with
  | zero => simp only [memcpy, Nat.not_lt_zero, and_false, false_or]
  | succ size ih =>
      rw [memcpy, ih _ (add64_lt dst 1), put_stored, List.mem_cons]
      exact stored_succ hdst

/-! ## What a loop leaves -/

theorem memset_mem (s : Store) (value size : Nat) {a dst : Nat} (ha : a < wordSize)
    (hdst : dst < wordSize) :
    (s.memset dst value size).mem a =
      if sub64 a dst < size then UInt8.ofNat value else s.mem a := by
  induction size generalizing s dst with
  | zero => rw [memset, if_neg (Nat.not_lt_zero _)]
  | succ size ih =>
      rw [memset, ih _ (add64_lt dst 1), put_mem]
      by_cases hnext : sub64 a (add64 dst 1) < size
      · rw [if_pos hnext, if_pos ((sub64_lt_succ ha hdst).mpr (Or.inr hnext))]
      · rw [if_neg hnext]
        by_cases hfirst : a = dst
        · rw [if_pos hfirst, if_pos ((sub64_lt_succ ha hdst).mpr (Or.inl hfirst))]
        · have hout : ¬sub64 a dst < size + 1 := by
            rw [sub64_lt_succ ha hdst]
            exact not_or.mpr ⟨hfirst, hnext⟩
          rw [if_neg hfirst, if_neg hout]

/-- A copy leaves what is outside of its destination. -/
theorem memcpy_mem_of_not_lt (s : Store) {size a dst src : Nat} (ha : a < wordSize)
    (hdst : dst < wordSize) (hout : ¬sub64 a dst < size) :
    (s.memcpy dst src size).mem a = s.mem a := by
  induction size generalizing s dst src with
  | zero => rfl
  | succ size ih =>
      rw [sub64_lt_succ ha hdst, not_or] at hout
      rw [memcpy, ih _ (add64_lt dst 1) hout.2, put_mem, if_neg hout.1]

/-- A copy whose source is apart from its destination. -/
theorem memcpy_mem (s : Store) {size dst src : Nat} (hsize : size ≤ wordSize)
    (hdst : dst < wordSize) (hsrc : src < wordSize)
    (hapart : ∀ d < size, ¬sub64 (add64 src d) dst < size) {d : Nat} (hd : d < size) :
    (s.memcpy dst src size).mem (add64 dst d) = s.mem (add64 src d) := by
  induction size generalizing s dst src d with
  | zero => exact absurd hd (Nat.not_lt_zero d)
  | succ size ih =>
      rw [memcpy]
      cases d with
      | zero =>
          have hback : ¬sub64 dst (add64 dst 1) < size := by
            rw [sub64_add64_one_self]
            omega
          rw [add64_of_lt (b := 0) hdst, add64_of_lt (b := 0) hsrc, Nat.add_zero, Nat.add_zero,
            memcpy_mem_of_not_lt _ hdst (add64_lt dst 1) hback, put_mem, if_pos rfl]
      | succ d =>
          have hd' : d < size := Nat.lt_of_succ_lt_succ hd
          have hrest : ∀ e < size, ¬sub64 (add64 (add64 src 1) e) (add64 dst 1) < size := by
            intro e he hin
            rw [← add64_succ] at hin
            exact hapart (e + 1) (Nat.succ_lt_succ he)
              ((sub64_lt_succ (add64_lt src _) hdst).mpr (Or.inr hin))
          have hne : add64 src (d + 1) ≠ dst := by
            intro heq
            apply hapart (d + 1) hd
            rw [heq, sub64_self]
            exact Nat.succ_pos size
          rw [add64_succ dst d, ih _ (Nat.le_of_succ_le hsize) (add64_lt dst 1) (add64_lt src 1)
            hrest hd', put_mem, ← add64_succ, if_neg hne]

end Store

end ClayFigure
