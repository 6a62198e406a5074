/-
# The fields of numbers

What `number_to_string` stores is one field: spaces, a sign, the prefix of the base, zeros, the
digits and spaces again. Its loops count `width` down one after another; which of them stores the
padding depends on the flags, and the others find nothing left to do.
-/

import Mathlib.Data.Nat.Digits.Lemmas
import ClayFigure.Lib.Stdio

namespace ClayFigure

/-! ## The field -/

/-- A number in digits, the highest first. -/
def numeral (small : Bool) (base n : Nat) : List Byte :=
  if n = 0 then ['0'.toUInt8] else ((Nat.digits base n).map (digitByte small)).reverse

/-- The number that the 64 bits of `num` stand for. -/
def numberValue (num : Nat) (flag : FormatFlags) : Int :=
  if flag.sign ∧ 2 ^ 63 ≤ num then (num : Int) - 2 ^ 64 else num

/-- The character in front of a number. -/
def signOf (num : Nat) (flag : FormatFlags) : List Byte :=
  if numberValue num flag < 0 then ['-'.toUInt8]
  else if flag.plus then ['+'.toUInt8]
  else if flag.space then [' '.toUInt8]
  else []

/-- The digits of the absolute value of a number. -/
def digitsOf (num base : Nat) (flag : FormatFlags) : List Byte :=
  numeral flag.small base (numberValue num flag).natAbs

/-- The number of digits with the zeros that `precision` asks for. -/
def digitCount (num base : Nat) (precision : Int) (flag : FormatFlags) : Nat :=
  max precision.toNat (digitsOf num base flag).length

/-- The length of a field without padding. -/
def bodyLength (num base : Nat) (precision : Int) (flag : FormatFlags) : Nat :=
  (signOf num flag).length + (basePrefix base flag).length + digitCount num base precision flag

/-- The padding of a field. -/
def padLength (num base : Nat) (width precision : Int) (flag : FormatFlags) : Nat :=
  width.toNat - bodyLength num base precision flag

/-- The field of a number. -/
def numberField (num base : Nat) (width precision : Int) (flag : FormatFlags) : List Byte :=
  let pad := padLength num base width precision flag
  let digits := digitsOf num base flag
  List.replicate (if flag.left ∨ flag.zero then 0 else pad) ' '.toUInt8 ++
    signOf num flag ++ basePrefix base flag ++
    List.replicate (if flag.zero ∧ ¬ flag.left then pad else 0) '0'.toUInt8 ++
    List.replicate (digitCount num base precision flag - digits.length) '0'.toUInt8 ++ digits ++
    List.replicate (if flag.left then pad else 0) ' '.toUInt8

theorem length_numberField (num base : Nat) (width precision : Int) (flag : FormatFlags) :
    (numberField num base width precision flag).length =
      max width.toNat (bodyLength num base precision flag) := by
  have hcount : (digitsOf num base flag).length ≤ digitCount num base precision flag :=
    Nat.le_max_right _ _
  simp only [numberField, List.length_append, List.length_replicate, padLength, bodyLength]
  cases flag.left <;> cases flag.zero <;> simp <;> omega

/-! ## The loops -/

theorem wrapInt_of_range {x : Int} (hlo : -0x80000000 ≤ x) (hhi : x < 0x80000000) :
    wrapInt x = x := by
  unfold wrapInt
  omega

theorem fillLoop_eq (c : Byte) (limit : Int) {fuel : Nat} {n : Int}
    (hfuel : (n - limit).toNat < fuel) :
    fillLoop c limit fuel n = (List.replicate (n - limit).toNat c, wrapInt (min limit n - 1)) := by
  induction fuel generalizing n with
  | zero => exact absurd hfuel (Nat.not_lt_zero _)
  | succ fuel ih =>
      rw [fillLoop]
      by_cases hn : limit < n
      · have hpass : (n - limit).toNat = (n - 1 - limit).toNat + 1 := by omega
        have hmin : min limit (n - 1) = min limit n := by omega
        rw [if_pos hn, ih (by omega), hpass, hmin]
        rfl
      · have hnone : (n - limit).toNat = 0 := by omega
        have hmin : min limit n = n := by omega
        rw [if_neg hn, hnone, hmin]
        rfl

/-- `while (n-- > limit) *str++ = c;` -/
theorem fill_eq (c : Byte) (limit n : Int) :
    fill c limit n = (List.replicate (n - limit).toNat c, wrapInt (min limit n - 1)) :=
  fillLoop_eq c limit (Nat.lt_succ_self _)

theorem digitLoop_eq (small : Bool) {base : Nat} (hbase : 2 ≤ base) {room num : Nat}
    (hnum : num < base ^ room) :
    digitLoop small base room num = some ((Nat.digits base num).map (digitByte small)) := by
  induction room generalizing num with
  | zero =>
      have hzero : num = 0 := Nat.lt_one_iff.mp hnum
      rw [digitLoop, if_pos hzero, hzero, Nat.digits_zero]
      rfl
  | succ room ih =>
      rw [digitLoop]
      by_cases hzero : num = 0
      · rw [if_pos hzero, hzero, Nat.digits_zero]
        rfl
      · have hrest : num / base < base ^ room := by
          apply Nat.div_lt_of_lt_mul
          rwa [Nat.mul_comm, ← Nat.pow_succ]
        rw [if_neg hzero, ih hrest, Nat.digits_def' hbase (Nat.pos_of_ne_zero hzero)]
        rfl

theorem takeSign_eq {num : Nat} (hnum : num < 2 ^ 64) (flag : FormatFlags) :
    takeSign num flag = (signOf num flag, (numberValue num flag).natAbs) := by
  unfold takeSign signOf numberValue
  by_cases hneg : flag.sign ∧ 2 ^ 63 ≤ num
  · have habs : sub64 0 num = ((num : Int) - 2 ^ 64).natAbs := by
      unfold sub64 wordSize
      omega
    have hlt : (num : Int) - 2 ^ 64 < 0 := by omega
    simp only [if_pos hneg, if_pos hlt, habs]
  · have hge : ¬ (num : Int) < 0 := by omega
    simp only [if_neg hneg, if_neg hge, Int.natAbs_natCast]
    split
    · rfl
    · split <;> rfl

/-- The bases of the conversions. -/
def PrintBase (base : Nat) : Prop := base = 8 ∨ base = 10 ∨ base = 16

theorem PrintBase.two_le {base : Nat} (hbase : PrintBase base) : 2 ≤ base ∧ base ≤ 36 := by
  rcases hbase with rfl | rfl | rfl <;> decide

theorem PrintBase.room {base : Nat} (hbase : PrintBase base) : 2 ^ 64 ≤ base ^ 50 := by
  rcases hbase with rfl | rfl | rfl <;> norm_num

theorem natAbs_numberValue_le {num : Nat} (hnum : num < 2 ^ 64) (flag : FormatFlags) :
    (numberValue num flag).natAbs < 2 ^ 64 := by
  unfold numberValue
  split <;> omega

/-- The digits in `tmp`. -/
theorem tmp_eq {num base : Nat} (hbase : PrintBase base) (hnum : num < 2 ^ 64)
    (flag : FormatFlags) :
    (if (numberValue num flag).natAbs = 0 then some ['0'.toUInt8]
      else digitLoop flag.small base 50 (numberValue num flag).natAbs) =
      some (digitsOf num base flag).reverse := by
  unfold digitsOf numeral
  split
  · rfl
  · rw [digitLoop_eq flag.small hbase.two_le.1
      ((natAbs_numberValue_le hnum flag).trans_le hbase.room), List.reverse_reverse]

/-- What is left of `width` for padding. -/
def widthLeft (num base : Nat) (width precision : Int) (flag : FormatFlags) : Int :=
  wrapInt (wrapInt ((if signOf num flag ≠ [] then wrapInt (width - 1) else width) -
    (basePrefix base flag).length) - max precision (digitsOf num base flag).length)

/-- What `number_to_string` stores, with the lengths that its loops find. -/
theorem numberToString_eq {num base : Nat} (hbase : PrintBase base) (hnum : num < 2 ^ 64)
    (width precision : Int) (flag : FormatFlags) :
    ∃ left middle right : Nat,
      numberToString num base width precision flag =
        some (List.replicate left ' '.toUInt8 ++ signOf num flag ++ basePrefix base flag ++
          List.replicate middle (if flag.zero then '0'.toUInt8 else ' '.toUInt8) ++
          List.replicate (digitCount num base precision flag - (digitsOf num base flag).length)
            '0'.toUInt8 ++ digitsOf num base flag ++ List.replicate right ' '.toUInt8) ∧
      (-0x7fffffff < widthLeft num base width precision flag →
        left = (if flag.left ∨ flag.zero then 0
          else (widthLeft num base width precision flag).toNat) ∧
        middle = (if flag.zero ∧ ¬ flag.left then
          (widthLeft num base width precision flag).toNat else 0) ∧
        right = if flag.left then (widthLeft num base width precision flag).toNat else 0) := by
  have hknown : ¬ (base < 2 ∨ 36 < base) := by
    have := hbase.two_le
    omega
  have hprec : (if precision < (digitsOf num base flag).length then
      ((digitsOf num base flag).length : Int) else precision) =
        max precision (digitsOf num base flag).length := by
    split <;> omega
  have hzeros : (max precision (digitsOf num base flag).length -
      (digitsOf num base flag).length).toNat =
        digitCount num base precision flag - (digitsOf num base flag).length := by
    unfold digitCount
    omega
  unfold numberToString
  simp only [if_neg hknown, takeSign_eq hnum flag, tmp_eq hbase hnum flag, Option.map_some,
    storeNumber, List.length_reverse, List.reverse_reverse, fill_eq, hprec, hzeros]
  rw [← widthLeft]
  generalize widthLeft num base width precision flag = w
  -- Where `w` is what is left of the width, a loop that has done nothing leaves less than 0 of it.
  have hspent : -0x7fffffff < w → (wrapInt (min 0 w - 1)).toNat = 0 := fun hw => by
    rw [wrapInt_of_range (by omega) (by omega)]
    omega
  have hspent' : -0x7fffffff < w → (wrapInt (min 0 (wrapInt (min 0 w - 1)) - 1)).toNat = 0 :=
    fun hw => by
      rw [wrapInt_of_range (x := min 0 w - 1) (by omega) (by omega),
        wrapInt_of_range (by omega) (by omega)]
      omega
  cases flag.left with
  | true =>
      refine ⟨0, 0, w.toNat, ?_, fun _ => ⟨by simp, by simp, by simp⟩⟩
      simp
  | false =>
      cases flag.zero with
      | true =>
          refine ⟨0, w.toNat, (wrapInt (min 0 w - 1)).toNat, ?_, fun hw => ⟨by simp, by simp, ?_⟩⟩
          · simp
          · exact hspent hw
      | false =>
          refine ⟨w.toNat, (wrapInt (min 0 w - 1)).toNat,
            (wrapInt (min 0 (wrapInt (min 0 w - 1)) - 1)).toNat, ?_, fun hw => ⟨by simp, ?_, ?_⟩⟩
          · simp
          · exact hspent hw
          · exact hspent' hw

theorem length_signOf_le (num : Nat) (flag : FormatFlags) : (signOf num flag).length ≤ 1 := by
  unfold signOf
  split_ifs <;> decide

theorem length_basePrefix_le (base : Nat) (flag : FormatFlags) :
    (basePrefix base flag).length ≤ 2 := by
  unfold basePrefix
  split_ifs <;> simp

/-- No number has more digits than `tmp` has room for. -/
theorem length_digitsOf_le {num base : Nat} (hbase : PrintBase base) (hnum : num < 2 ^ 64)
    (flag : FormatFlags) : (digitsOf num base flag).length ≤ 50 := by
  unfold digitsOf numeral
  split
  · decide
  · rw [List.length_reverse, List.length_map]
    apply (Nat.digits_length_le_iff hbase.two_le.1 _).mpr
    exact (natAbs_numberValue_le hnum flag).trans_le hbase.room

/-- The padding is what `width` is longer than the rest of the field. -/
theorem widthLeft_eq {num base : Nat} (hbase : PrintBase base) (hnum : num < 2 ^ 64)
    {width precision : Int} (hwidth : -1 ≤ width ∧ width ≤ 2 ^ 30)
    (hprecision : -1 ≤ precision ∧ precision ≤ 2 ^ 30) (flag : FormatFlags) :
    -0x7fffffff < widthLeft num base width precision flag ∧
      (widthLeft num base width precision flag).toNat =
        padLength num base width precision flag := by
  have hsign := length_signOf_le num flag
  have hprefix := length_basePrefix_le base flag
  have hdigits := length_digitsOf_le hbase hnum flag
  have hwidth' : (if signOf num flag ≠ [] then wrapInt (width - 1) else width) =
      width - (signOf num flag).length := by
    cases hs : signOf num flag with
    | nil => simp
    | cons c s =>
        rw [hs, List.length_cons] at hsign
        rw [if_pos (List.cons_ne_nil c s), wrapInt_of_range (by omega) (by omega),
          List.length_cons, Nat.le_zero.mp (Nat.le_of_succ_le_succ hsign)]
        rfl
  rw [widthLeft, hwidth', padLength, bodyLength, digitCount,
    wrapInt_of_range (x := width - (signOf num flag).length - _) (by omega) (by omega),
    wrapInt_of_range (by omega) (by omega)]
  omega

/-- `number_to_string` stores the field of a number, and no more than the field. -/
theorem numberToString_numberField {num base : Nat} (hbase : PrintBase base) (hnum : num < 2 ^ 64)
    {width precision : Int} (hwidth : -1 ≤ width ∧ width ≤ 2 ^ 30)
    (hprecision : -1 ≤ precision ∧ precision ≤ 2 ^ 30) (flag : FormatFlags) :
    numberToString num base width precision flag =
        some (numberField num base width precision flag) ∧
      (numberField num base width precision flag).length =
        max width.toNat (bodyLength num base precision flag) := by
  obtain ⟨left, middle, right, hstored, hlengths⟩ :=
    numberToString_eq hbase hnum width precision flag
  obtain ⟨hrange, hpad⟩ := widthLeft_eq hbase hnum hwidth hprecision flag
  obtain ⟨rfl, rfl, rfl⟩ := hlengths hrange
  refine ⟨?_, length_numberField num base width precision flag⟩
  rw [hstored, hpad, numberField]
  cases flag.zero <;> simp

/-- The field of -42 with a width of 6 and zeros. -/
theorem numberField_minus42 :
    numberField (2 ^ 64 - 42) 10 6 (-1) { sign := true, zero := true } =
      ['-', '0', '0', '0', '4', '2'].map Char.toUInt8 := by
  have h := (@numberToString_numberField (2 ^ 64 - 42) 10 (Or.inr (Or.inl rfl)) (by decide) 6 (-1)
    (by decide) (by decide) { sign := true, zero := true }).1
  have hrun : numberToString (2 ^ 64 - 42) 10 6 (-1) { sign := true, zero := true } =
      some (['-', '0', '0', '0', '4', '2'].map Char.toUInt8) := by decide
  exact Option.some.inj (h.symm.trans hrun)

/-! ## Reading a field -/

/-- The value of a digit; a character that is no digit has 36. -/
def digitVal (c : Byte) : Nat :=
  if '0'.toUInt8 ≤ c ∧ c ≤ '9'.toUInt8 then c.toNat - 48
  else if 'A'.toUInt8 ≤ c ∧ c ≤ 'Z'.toUInt8 then c.toNat - 55
  else if 'a'.toUInt8 ≤ c ∧ c ≤ 'z'.toUInt8 then c.toNat - 87
  else 36

/-- The digits a text ends with, up to spaces behind them; the lowest is first. -/
def lastDigits (base : Nat) (s : List Byte) : List Byte :=
  (s.reverse.dropWhile fun c => c = ' '.toUInt8).takeWhile fun c => digitVal c < base

/-- The number that has been printed. -/
def printedNumber (base : Nat) (s : List Byte) : Option Int :=
  if lastDigits base s = [] then none
  else
    let n := Nat.ofDigits base ((lastDigits base s).map digitVal)
    some (if '-'.toUInt8 ∈ s then -(n : Int) else n)

theorem digitVal_digitByte (small : Bool) : ∀ i < 36, digitVal (digitByte small i) = i := by
  cases small <;> decide

theorem numeral_ne_nil (small : Bool) (base n : Nat) : numeral small base n ≠ [] := by
  unfold numeral
  split
  · exact List.cons_ne_nil _ _
  · next hn =>
      rw [Ne, List.reverse_eq_nil_iff, List.map_eq_nil_iff, Nat.digits_eq_nil_iff_eq_zero]
      exact hn

theorem digitVal_lt_of_mem_numeral {small : Bool} {base n : Nat} (hbase : 2 ≤ base ∧ base ≤ 36) :
    ∀ c ∈ numeral small base n, digitVal c < base := by
  intro c hc
  unfold numeral at hc
  split at hc
  · rw [List.mem_singleton.mp hc]
    exact Nat.lt_of_lt_of_le (by decide) hbase.1
  · obtain ⟨d, hd, rfl⟩ := List.mem_map.mp (List.mem_reverse.mp hc)
    have hlt := Nat.digits_lt_base hbase.1 hd
    rw [digitVal_digitByte small d (hlt.trans_le hbase.2)]
    exact hlt

theorem ofDigits_numeral {small : Bool} {base n : Nat} (hbase : 2 ≤ base ∧ base ≤ 36) :
    Nat.ofDigits base ((numeral small base n).reverse.map digitVal) = n := by
  unfold numeral
  split
  · next hn =>
      rw [hn]
      simp [show digitVal '0'.toUInt8 = 0 from rfl]
  · have hmap : ((Nat.digits base n).map (digitByte small)).map digitVal = Nat.digits base n := by
      rw [List.map_map, List.map_congr_left (g := id), List.map_id]
      intro d hd
      exact digitVal_digitByte small d ((Nat.digits_lt_base hbase.1 hd).trans_le hbase.2)
    rw [List.reverse_reverse, hmap, Nat.ofDigits_digits]

/-- Zeros in front of the digits do not change the number. -/
theorem printedNumber_eq (small : Bool) {base : Nat} (hbase : 2 ≤ base ∧ base ≤ 36) (n : Nat)
    (front : List Byte) (hfront : ∀ c ∈ front, c = '0'.toUInt8 ∨ base ≤ digitVal c) (right : Nat) :
    printedNumber base (front ++ numeral small base n ++ List.replicate right ' '.toUInt8) =
      some (if '-'.toUInt8 ∈ front then -(n : Int) else n) := by
  have hnone (c : Byte) (hc : digitVal c = 36) : c ∉ numeral small base n := fun hmem =>
    absurd (digitVal_lt_of_mem_numeral hbase c hmem) (by rw [hc]; exact Nat.not_lt.mpr hbase.2)
  -- The digits are found from the end on.
  have hlast : lastDigits base (front ++ numeral small base n ++
      List.replicate right ' '.toUInt8) = (numeral small base n).reverse ++
        front.reverse.takeWhile fun c => digitVal c < base := by
    obtain ⟨c, ds, hds⟩ := List.exists_cons_of_ne_nil
      (List.reverse_eq_nil_iff.not.mpr (numeral_ne_nil small base n))
    have hc : c ≠ ' '.toUInt8 := by
      rintro rfl
      exact hnone _ rfl (List.mem_reverse.mp (by rw [hds]; exact List.mem_cons_self))
    have hdigits : ∀ c ∈ (numeral small base n).reverse, decide (digitVal c < base) = true :=
      fun c hc => decide_eq_true (digitVal_lt_of_mem_numeral hbase c (List.mem_reverse.mp hc))
    rw [lastDigits, List.reverse_append, List.reverse_append, List.reverse_replicate,
      List.dropWhile_append_of_pos (by
        intro c hc
        exact decide_eq_true (List.eq_of_mem_replicate hc))]
    rw [hds] at hdigits ⊢
    rw [List.cons_append, List.dropWhile_cons_of_neg (by simpa using hc), ← List.cons_append,
      List.takeWhile_append_of_pos hdigits]
  have hzeros : ∀ d ∈ (front.reverse.takeWhile fun c => digitVal c < base).map digitVal, d = 0 := by
    intro d hd
    obtain ⟨c, hc, rfl⟩ := List.mem_map.mp hd
    have hlt := of_decide_eq_true (List.all_eq_true.mp List.all_takeWhile c hc)
    rcases hfront c (List.mem_reverse.mp (List.takeWhile_subset _ hc)) with rfl | hge
    · rfl
    · exact absurd hlt (Nat.not_lt.mpr hge)
  have hne : lastDigits base (front ++ numeral small base n ++
      List.replicate right ' '.toUInt8) ≠ [] := by
    rw [hlast]
    exact List.append_ne_nil_of_left_ne_nil
      (List.reverse_eq_nil_iff.not.mpr (numeral_ne_nil small base n)) _
  have hvalue : Nat.ofDigits base ((lastDigits base (front ++ numeral small base n ++
      List.replicate right ' '.toUInt8)).map digitVal) = n := by
    rw [hlast, List.map_append, Nat.ofDigits_append, ofDigits_numeral hbase,
      List.eq_replicate_of_mem hzeros, Nat.ofDigits_replicate_zero, Nat.mul_zero, Nat.add_zero]
  have hsign : '-'.toUInt8 ∈ front ++ numeral small base n ++ List.replicate right ' '.toUInt8 ↔
      '-'.toUInt8 ∈ front := by
    rw [List.mem_append, List.mem_append]
    refine ⟨fun h => ?_, fun h => Or.inl (Or.inl h)⟩
    rcases h with (h | h) | h
    · exact h
    · exact absurd h (hnone _ rfl)
    · exact absurd (List.eq_of_mem_replicate h) (by decide)
  simp only [printedNumber, if_neg hne, hvalue, hsign]

/-- A number in octal, decimal or hexadecimal is read back from what `number_to_string` stores,
whatever the flags, the width and the precision are. -/
theorem numberToString_printedNumber {num base : Nat} (hbase : PrintBase base)
    (hnum : num < 2 ^ 64) (width precision : Int) (flag : FormatFlags) :
    ∃ stored, numberToString num base width precision flag = some stored ∧
      printedNumber base stored = some (numberValue num flag) := by
  obtain ⟨left, middle, right, hstored, -⟩ := numberToString_eq hbase hnum width precision flag
  refine ⟨_, hstored, ?_⟩
  have hspace : base ≤ digitVal ' '.toUInt8 := hbase.two_le.2
  -- The prefix of a base has no digit of it but a zero.
  have hprefix : ∀ c ∈ basePrefix base flag, c = '0'.toUInt8 ∨ base ≤ digitVal c := by
    intro c hc
    rcases hbase with rfl | rfl | rfl
    · cases hspecial : flag.special <;> simp [basePrefix, hspecial] at hc
      exact Or.inl hc
    · simp [basePrefix] at hc
    · cases hspecial : flag.special <;> simp [basePrefix, hspecial] at hc
      rcases hc with rfl | rfl
      · exact Or.inl rfl
      · right
        rw [digitVal_digitByte _ 33 (by decide)]
        decide
  have hsign : ∀ c ∈ signOf num flag, base ≤ digitVal c := by
    intro c hc
    unfold signOf at hc
    split_ifs at hc
    · rw [List.mem_singleton.mp hc]
      exact hbase.two_le.2
    · rw [List.mem_singleton.mp hc]
      exact hbase.two_le.2
    · rw [List.mem_singleton.mp hc]
      exact hbase.two_le.2
    · cases hc
  have hminus : ∀ c ∈ basePrefix base flag, c ≠ '-'.toUInt8 := by
    rintro c hc rfl
    revert hc
    unfold basePrefix
    split_ifs
    · decide
    · cases flag.small <;> decide
    · exact List.not_mem_nil
    · exact List.not_mem_nil
  generalize hfront : List.replicate left ' '.toUInt8 ++ signOf num flag ++ basePrefix base flag ++
    List.replicate middle (if flag.zero then '0'.toUInt8 else ' '.toUInt8) ++
    List.replicate (digitCount num base precision flag - (digitsOf num base flag).length)
      '0'.toUInt8 = front
  have hmem (c : Byte) : c ∈ front → c = ' '.toUInt8 ∨ c ∈ signOf num flag ∨
      c ∈ basePrefix base flag ∨ c = '0'.toUInt8 := by
    rw [← hfront]
    simp only [List.mem_append, List.mem_replicate]
    rintro ((((⟨-, rfl⟩ | h) | h) | ⟨-, rfl⟩) | ⟨-, rfl⟩)
    · exact Or.inl rfl
    · exact Or.inr (Or.inl h)
    · exact Or.inr (Or.inr (Or.inl h))
    · split
      · exact Or.inr (Or.inr (Or.inr rfl))
      · exact Or.inl rfl
    · exact Or.inr (Or.inr (Or.inr rfl))
  have hneg : '-'.toUInt8 ∈ front ↔ numberValue num flag < 0 := by
    refine ⟨fun h => ?_, fun h => ?_⟩
    · rcases hmem _ h with h | h | h | h
      · exact absurd h (by decide)
      · by_contra hpos
        rw [signOf, if_neg hpos] at h
        split_ifs at h
        · exact absurd h (by decide)
        · exact absurd h (by decide)
        · cases h
      · exact absurd rfl (hminus _ h)
      · exact absurd h (by decide)
    · rw [← hfront, signOf, if_pos h]
      simp
  have hread := printedNumber_eq flag.small hbase.two_le (numberValue num flag).natAbs front
    (fun c hc => ?_) right
  · rw [digitsOf, hread]
    simp only [hneg]
    split <;> congr 1 <;> omega
  · rcases hmem c hc with rfl | h | h | h
    · exact Or.inr hspace
    · exact Or.inr (hsign c h)
    · exact hprefix c h
    · exact Or.inl h

end ClayFigure
