/-
# The numbers that are printed

A conversion of a number as it may be written in a format, with its flags, width, precision and
qualifier, and the number that it prints for each value of its argument.
-/

import ClayFigure.Lib.StdioFormat

namespace ClayFigure

/-! ## Conversions in a format -/

/-- A width or precision: a `*`, or digits. -/
inductive FormatNum
  | star
  | digits (ds : List Byte) (hds : ∀ c ∈ ds, isDigit c = true)

namespace FormatNum

def bytes : FormatNum → List Byte
  | .star => ['*'.toUInt8]
  | .digits ds _ => ds

/-- The arguments it takes. -/
def stars : FormatNum → Nat
  | .star => 1
  | .digits _ _ => 0

end FormatNum

/-- The conversions of numbers. -/
inductive NumConv
  | d | i | u | o | x | X
  deriving DecidableEq

namespace NumConv

def char : NumConv → Byte
  | .d => 'd'.toUInt8
  | .i => 'i'.toUInt8
  | .u => 'u'.toUInt8
  | .o => 'o'.toUInt8
  | .x => 'x'.toUInt8
  | .X => 'X'.toUInt8

def base : NumConv → Nat
  | .d | .i | .u => 10
  | .o => 8
  | .x | .X => 16

/-- The value that the conversion is to print: `d` and `i` take their argument as `int32_t`, the
others as `uint32_t`, and as 64 bits with an `l`. -/
def value (conv : NumConv) (long : Bool) (word : Nat) : Int :=
  let width := if long then 2 ^ 64 else 2 ^ 32
  let word := word % width
  match conv with
  | .d | .i => if word < width / 2 then word else (word : Int) - width
  | .u | .o | .x | .X => word

end NumConv

/-- What stands between the `%` and the character of a conversion. -/
structure FormatText where
  flags : List Byte
  flags_flag : ∀ c ∈ flags, isFlag c = true
  width : FormatNum
  width_head : width.bytes.head? ≠ some '0'.toUInt8
  precision : Option FormatNum
  long : Bool

namespace FormatText

variable (text : FormatText)

/-- From the precision on. -/
def precisionBytes : List Byte :=
  match text.precision with
  | none => []
  | some n => '.'.toUInt8 :: n.bytes

def qualifierBytes : List Byte := if text.long then ['l'.toUInt8] else []

/-- The text behind the `%`, with the conversion character. -/
def bytes (conv : NumConv) : List Byte :=
  text.flags ++ (text.width.bytes ++ (text.precisionBytes ++ (text.qualifierBytes ++ [conv.char])))

/-- The arguments that are taken before the one that is printed. -/
def stars : Nat := text.width.stars + (text.precision.map FormatNum.stars).getD 0

end FormatText

/-! ## Reading them -/

/-- A text at which the scanning of flags, digits and a `*` stops. -/
def Stops (s : List Byte) : Prop :=
  ∃ c u, s = c :: u ∧ isFlag c = false ∧ isDigit c = false ∧ c ≠ '*'.toUInt8

theorem Stops.dropWhile_isFlag {s : List Byte} (hs : Stops s) : s.dropWhile isFlag = s := by
  obtain ⟨c, u, rfl, hflag, -⟩ := hs
  exact List.dropWhile_cons_of_neg (Bool.eq_false_iff.mp hflag)

theorem afterDigits_append (n : FormatNum) {s : List Byte} (hs : Stops s) :
    afterDigits (n.bytes ++ s) = s := by
  cases n with
  | star => rfl
  | digits ds hds =>
      obtain ⟨c, u, rfl, -, hdigit, hstar⟩ := hs
      have hstop : (c :: u).dropWhile isDigit = c :: u :=
        List.dropWhile_cons_of_neg (Bool.eq_false_iff.mp hdigit)
      cases ds with
      | nil =>
          show afterDigits (c :: u) = c :: u
          rw [afterDigits, if_neg hstar, hstop]
      | cons b ds =>
          have hb : ¬ b = '*'.toUInt8 := fun h =>
            not_isDigit_star (h ▸ hds b List.mem_cons_self)
          show afterDigits (b :: (ds ++ c :: u)) = c :: u
          rw [afterDigits, if_neg hb, ← List.cons_append, List.dropWhile_append_of_pos hds, hstop]

theorem VaList.words_afterDigits (ap : VaList) (n : FormatNum) {s : List Byte} (hs : Stops s)
    (k : Nat) : (ap.afterDigits (n.bytes ++ s)).words k = ap.words (k + n.stars) := by
  cases n with
  | star => rfl
  | digits ds hds =>
      obtain ⟨c, u, rfl, -, -, hstar⟩ := hs
      cases ds with
      | nil =>
          show (ap.afterDigits (c :: u)).words k = ap.words k
          rw [VaList.afterDigits, if_neg hstar]
      | cons b ds =>
          have hb : ¬ b = '*'.toUInt8 := fun h =>
            not_isDigit_star (h ▸ hds b List.mem_cons_self)
          show (ap.afterDigits (b :: (ds ++ c :: u))).words k = ap.words k
          rw [VaList.afterDigits, if_neg hb]

namespace FormatText

variable (text : FormatText) (conv : NumConv)

theorem stops_qualifier : Stops (text.qualifierBytes ++ [conv.char]) := by
  unfold qualifierBytes
  cases text.long with
  | true => exact ⟨_, _, rfl, by decide, by decide, by decide⟩
  | false => exact ⟨conv.char, [], rfl, by cases conv <;> decide, by cases conv <;> decide,
      by cases conv <;> decide⟩

theorem stops_precision :
    Stops (text.precisionBytes ++ (text.qualifierBytes ++ [conv.char])) := by
  unfold precisionBytes
  cases text.precision with
  | none => exact text.stops_qualifier conv
  | some n => exact ⟨'.'.toUInt8, _, rfl, by decide, by decide, by decide⟩

/-- No digit but a zero is a flag. -/
theorem eq_zero_of_isDigit_of_isFlag {c : Byte} (hdigit : isDigit c = true)
    (hflag : isFlag c = true) : c = '0'.toUInt8 := by
  simp only [isFlag, Bool.or_eq_true, decide_eq_true_eq] at hflag
  rcases hflag with ((rfl | rfl) | rfl) | rfl
  · exact absurd hdigit (by decide)
  · rfl
  · exact absurd hdigit (by decide)
  · exact absurd hdigit (by decide)

theorem dropWhile_isFlag : (text.bytes conv).dropWhile isFlag =
    text.width.bytes ++ (text.precisionBytes ++ (text.qualifierBytes ++ [conv.char])) := by
  rw [bytes, List.dropWhile_append_of_pos text.flags_flag]
  have hhead := text.width_head
  cases hwidth : text.width with
  | star => rfl
  | digits ds hds =>
      rw [hwidth] at hhead
      cases ds with
      | nil => exact (text.stops_precision conv).dropWhile_isFlag
      | cons b ds =>
          apply List.dropWhile_cons_of_neg
          intro hflag
          apply hhead
          exact congrArg some (eq_zero_of_isDigit_of_isFlag (hds b List.mem_cons_self) hflag)

theorem afterPrecision_eq :
    afterPrecision (text.precisionBytes ++ (text.qualifierBytes ++ [conv.char])) =
      text.qualifierBytes ++ [conv.char] := by
  have hstops := text.stops_qualifier conv
  unfold precisionBytes
  cases text.precision with
  | none =>
      unfold qualifierBytes
      cases text.long with
      | true => rfl
      | false => cases conv <;> rfl
  | some n =>
      show afterPrecision ('.'.toUInt8 :: (n.bytes ++ _)) = _
      rw [afterPrecision, if_pos rfl, afterDigits_append n hstops]

theorem lastQualifier_eq : lastQualifier 0 (text.qualifierBytes ++ [conv.char]) =
    if text.long then 'l'.toUInt8 else 0 := by
  unfold qualifierBytes
  cases text.long <;> cases conv <;> rfl

theorem afterSpec_bytes : afterSpec (text.bytes conv) = [conv.char] := by
  rw [afterSpec, text.dropWhile_isFlag, afterDigits_append _ (text.stops_precision conv),
    text.afterPrecision_eq, qualifierBytes]
  cases text.long <;> cases conv <;> rfl

/-- The argument that is printed. -/
theorem words_afterSpec (ap : VaList) :
    (ap.afterSpec (text.bytes conv)).words 0 = ap.words text.stars := by
  have hwidth (k : Nat) :=
    ap.words_afterDigits text.width (text.stops_precision conv) k
  rw [VaList.afterSpec, text.dropWhile_isFlag, afterDigits_append _ (text.stops_precision conv)]
  generalize ap.afterDigits (text.width.bytes ++
    (text.precisionBytes ++ (text.qualifierBytes ++ [conv.char]))) = ap' at *
  have hstops := text.stops_qualifier conv
  unfold precisionBytes stars
  cases text.precision with
  | none =>
      have hnone : ap'.afterPrecision (text.qualifierBytes ++ [conv.char]) = ap' := by
        unfold qualifierBytes
        cases text.long with
        | true => rfl
        | false => cases conv <;> rfl
      show (ap'.afterPrecision (text.qualifierBytes ++ [conv.char])).words 0 = _
      rw [hnone, hwidth]
      exact congrArg ap.words (Nat.zero_add _)
  | some n =>
      show (ap'.afterPrecision ('.'.toUInt8 :: (n.bytes ++ _))).words 0 = _
      rw [VaList.afterPrecision, if_pos rfl, VaList.words_afterDigits ap' n hstops, hwidth]
      exact congrArg ap.words (by simp [Nat.add_comm])

end FormatText

/-! ## The number -/

/-- The arguments whose value the conversion prints: without an `l`, `%u` and `%o` take theirs as
`int`, so that its bit 31 is spread over the upper half. -/
def NumConv.Reads (conv : NumConv) (long : Bool) (word : Nat) : Prop :=
  conv = .u ∨ conv = .o → long = true ∨ word % 2 ^ 32 < 2 ^ 31

theorem intOf_eq (word : Nat) : intOf word =
    if word % 2 ^ 32 < 2 ^ 31 then ((word % 2 ^ 32 : Nat) : Int)
      else ((word % 2 ^ 32 : Nat) : Int) - 2 ^ 32 := by
  unfold intOf wrapInt
  split <;> omega

theorem wordOfInt_intOf (word : Nat) : wordOfInt (intOf word) =
    if word % 2 ^ 32 < 2 ^ 31 then word % 2 ^ 32 else word % 2 ^ 32 + (2 ^ 64 - 2 ^ 32) := by
  rw [intOf_eq]
  unfold wordOfInt
  split <;> omega

section

variable {word : Nat} (hword : word < 2 ^ 64) (long : Bool)
include hword

/-- `%d` and `%i` print the value of their argument. -/
theorem numberValue_signed {flag : FormatFlags} (hflag : flag.sign = true) :
    numberValue (if long then word else wordOfInt (intOf word)) flag =
      NumConv.value .d long word := by
  unfold numberValue NumConv.value
  cases long with
  | true =>
      simp only [hflag, if_true, true_and, Nat.mod_eq_of_lt hword]
      split <;> split <;> omega
  | false =>
      simp only [hflag, true_and, if_false, Bool.false_eq_true, wordOfInt_intOf]
      split <;> split <;> split <;> omega

/-- What `%u` and `%o` print. -/
theorem numberValue_int {flag : FormatFlags} (hflag : flag.sign = false) :
    numberValue (if long then word else wordOfInt (intOf word)) flag = NumConv.value .u long word ↔
      long = true ∨ word % 2 ^ 32 < 2 ^ 31 := by
  unfold numberValue NumConv.value
  cases long with
  | true =>
      simp only [hflag, Bool.false_eq_true, false_and, if_false, if_true, true_or, iff_true]
      omega
  | false =>
      simp only [hflag, Bool.false_eq_true, false_and, if_false, wordOfInt_intOf, false_or]
      split <;> omega

theorem numberValue_hex {flag : FormatFlags} (hflag : flag.sign = false) :
    numberValue (if long then word else word % 0x100000000) flag = NumConv.value .x long word := by
  unfold numberValue NumConv.value
  cases long with
  | true =>
      simp only [hflag, Bool.false_eq_true, false_and, if_false, if_true]
      omega
  | false => simp [hflag]

end

/-- A case of the `switch` for a number. -/
theorem convert_value_iff (env : FormatEnv) (spec : FormatSpec) (hflag : spec.flag.Unset)
    (ap : VaList) (conv : NumConv) {long : Bool}
    (hqualifier : spec.qualifier = if long then 'l'.toUInt8 else 0) :
    ∃ stored ap', convert env spec ap conv.char = some (some (stored, ap')) ∧
      (printedNumber conv.base stored = some (conv.value long ap.next.1) ↔
        conv.Reads long ap.next.1) := by
  have hword := ap.next_lt
  have hlong : (spec.qualifier = 'l'.toUInt8) ↔ long = true := by
    rw [hqualifier]
    cases long <;> decide
  have hint : intArgument spec ap = if long then ap.next.1 else wordOfInt (intOf ap.next.1) := by
    simp only [intArgument, hlong]
  have hhex : hexArgument spec ap = if long then ap.next.1 else ap.next.1 % 0x100000000 := by
    simp only [hexArgument, hlong]
  have hten : PrintBase 10 := Or.inr (Or.inl rfl)
  have hother {conv : NumConv} (hu : conv ≠ .u) (ho : conv ≠ .o) : conv.Reads long ap.next.1 :=
    fun h => absurd h (not_or.mpr ⟨hu, ho⟩)
  cases conv with
  | d | i =>
      obtain ⟨stored, hstored, hread⟩ :=
        convertInt_printedNumber ap spec hten { spec.flag with sign := true }
      refine ⟨stored, ap.next.2, congrArg some hstored,
        iff_of_true ?_ (hother (by decide) (by decide))⟩
      rw [hint, numberValue_signed hword long rfl] at hread
      exact hread
  | u =>
      obtain ⟨stored, hstored, hread⟩ := convertInt_printedNumber ap spec hten spec.flag
      refine ⟨stored, ap.next.2, congrArg some hstored, ?_⟩
      show printedNumber 10 stored = _ ↔ _
      rw [hread, hint, Option.some_inj, numberValue_int hword long hflag.1]
      simp [NumConv.Reads]
  | o =>
      obtain ⟨stored, hstored, hread⟩ := convertInt_printedNumber ap spec (Or.inl rfl) spec.flag
      refine ⟨stored, ap.next.2, congrArg some hstored, ?_⟩
      show printedNumber 8 stored = some (NumConv.value .u long ap.next.1) ↔ _
      rw [hread, hint, Option.some_inj, numberValue_int hword long hflag.1]
      simp [NumConv.Reads]
  | x =>
      obtain ⟨stored, hstored, hread⟩ :=
        convertHex_printedNumber ap spec { spec.flag with small := true }
      have hsmall : ({ spec.flag with small := true } : FormatFlags).sign = false := hflag.1
      refine ⟨stored, ap.next.2, congrArg some hstored,
        iff_of_true ?_ (hother (by decide) (by decide))⟩
      rw [hhex, numberValue_hex hword long hsmall] at hread
      exact hread
  | X =>
      obtain ⟨stored, hstored, hread⟩ := convertHex_printedNumber ap spec spec.flag
      refine ⟨stored, ap.next.2, congrArg some hstored,
        iff_of_true ?_ (hother (by decide) (by decide))⟩
      rw [hhex, numberValue_hex hword long hflag.1] at hread
      exact hread

/-- The number that `vsprintf` prints is the value of the argument, but for `%u` and `%o` without
an `l` of an argument whose bit 31 is set. -/
theorem vsprintf_value_iff (env : FormatEnv) (text : FormatText) (conv : NumConv) (ap : VaList)
    (rest : List Byte) : ∃ out n,
      vsprintf env ('%'.toUInt8 :: (cstr (text.bytes conv) ++ rest)) ap = some (out, n) ∧
        (printedNumber conv.base out =
            some (conv.value text.long (ap.words text.stars).toNat) ↔
          conv.Reads text.long (ap.words text.stars).toNat) := by
  obtain ⟨spec, hflag, hqualifier, hspec⟩ := getSpec_cstr ap (text.bytes conv)
  rw [text.dropWhile_isFlag, afterDigits_append _ (text.stops_precision conv),
    text.afterPrecision_eq, text.lastQualifier_eq] at hqualifier
  obtain ⟨stored, ap', hconvert, hiff⟩ :=
    convert_value_iff env spec hflag (ap.afterSpec (text.bytes conv)) conv hqualifier
  rw [VaList.next, text.words_afterSpec] at hiff
  obtain ⟨n, hn⟩ := strlen_isSome stored
  refine ⟨stored, n, ?_, hiff⟩
  have hpass : formatConversion env ap ('%'.toUInt8 :: (cstr (text.bytes conv) ++ rest)) =
      some (stored, ap', cstr [] ++ rest) := by
    rw [formatConversion, hspec rest, text.afterSpec_bytes]
    simp only [Option.bind_eq_bind, Option.bind_some, cstr_append_cons, hconvert]
    rfl
  have hloop (fuel : Nat) : formatLoop env (fuel + 2) ap
      ('%'.toUInt8 :: (cstr (text.bytes conv) ++ rest)) = some stored := by
    rw [formatLoop, if_neg (by decide), if_neg (not_not.mpr rfl), hpass]
    show some (stored ++ []) = some stored
    rw [List.append_nil]
  have hfuel : ('%'.toUInt8 :: (cstr (text.bytes conv) ++ rest)).length + 1 =
      ((text.bytes conv).length + rest.length + 1) + 2 := by
    rw [cstr, List.length_cons, List.length_append, List.length_append, List.length_singleton]
    omega
  simp only [vsprintf, hfuel, hloop, Option.bind_eq_bind, Option.bind_some, hn, Option.pure_def]

/-- `%u` of 2^32 - 1 prints 2^64 - 1. -/
theorem vsprintf_u_not_value :
    ¬ ∃ out n, vsprintf plainEnv (cstr ['%'.toUInt8, 'u'.toUInt8])
        ⟨fun _ => 0xffffffff, fun _ => 0⟩ = some (out, n) ∧
      printedNumber 10 out = some (NumConv.value .u false 0xffffffff) := by
  have hrun : vsprintf plainEnv (cstr ['%'.toUInt8, 'u'.toUInt8])
      ⟨fun _ => 0xffffffff, fun _ => 0⟩ =
        some ("18446744073709551615".toList.map Char.toUInt8, 20) := by
    decide
  rintro ⟨out, n, hout, hread⟩
  rw [hrun] at hout
  cases hout
  revert hread
  decide

end ClayFigure
