/-
# Numbers as bytes

A number of fixed width with its lowest byte first, and the number that such bytes stand for.
-/

import Mathlib.Tactic.NormNum

namespace ClayFigure.Math

/-- The `width` lowest bytes of `n`, the lowest first. -/
def toLE : Nat → Nat → List UInt8
  | 0, _ => []
  | width + 1, n => UInt8.ofNat n :: toLE width (n / 256)

/-- The number that bytes stand for. -/
def ofLE : List UInt8 → Nat
  | [] => 0
  | b :: bytes => b.toNat + 256 * ofLE bytes

@[simp]
theorem length_toLE (width n : Nat) : (toLE width n).length = width := by
  induction width generalizing n with
  | zero => rfl
  | succ width ih => rw [toLE, List.length_cons, ih]

theorem ofLE_toLE {width n : Nat} (hn : n < 256 ^ width) : ofLE (toLE width n) = n := by
  induction width generalizing n with
  | zero =>
      rw [Nat.pow_zero, Nat.lt_one_iff] at hn
      exact hn.symm
  | succ width ih =>
      have hrest : n / 256 < 256 ^ width := by
        apply Nat.div_lt_of_lt_mul
        rwa [Nat.mul_comm, ← Nat.pow_succ]
      rw [toLE, ofLE, ih hrest, UInt8.toNat_ofNat']
      exact Nat.mod_add_div n 256

theorem toLE_inj {width m n : Nat} (hm : m < 256 ^ width) (hn : n < 256 ^ width)
    (h : toLE width m = toLE width n) : m = n := by rw [← ofLE_toLE hm, h, ofLE_toLE hn]

theorem ofLE_lt (bytes : List UInt8) : ofLE bytes < 256 ^ bytes.length := by
  induction bytes with
  | nil => exact Nat.one_pos
  | cons b bytes ih =>
      have hb : b.toNat < 256 := b.toNat_lt
      rw [ofLE, List.length_cons, Nat.pow_succ]
      omega

end ClayFigure.Math
