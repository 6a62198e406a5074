/-
# Scanning a format

Each stage of `vsprintf` leaves the cursor in front of the NUL of the format or on it, so that the
loop comes to the NUL however the last conversion is cut off. What is left of a format behind each
stage is a function of the format alone.
-/

import ClayFigure.Lib.StdioNumber

namespace ClayFigure

/-! ## What is left of a format -/

/-- The characters that `get_flag` takes. -/
def isFlag (c : Byte) : Bool :=
  c = '-'.toUInt8 || c = '0'.toUInt8 || c = ' '.toUInt8 || c = '#'.toUInt8

/-- Behind a width or the digits of a precision: a `*`, or digits. -/
def afterDigits : List Byte → List Byte
  | [] => []
  | c :: s => if c = '*'.toUInt8 then s else (c :: s).dropWhile isDigit

/-- Behind a precision, if there is one. -/
def afterPrecision : List Byte → List Byte
  | [] => []
  | c :: s => if c = '.'.toUInt8 then afterDigits s else c :: s

/-- From behind the `%` to the conversion character. -/
def afterSpec (s : List Byte) : List Byte :=
  (afterPrecision (afterDigits (s.dropWhile isFlag))).dropWhile isQualifier

/-- From behind the `%` to what is behind the conversion. -/
def afterConversion (s : List Byte) : List Byte := (afterSpec s).drop 1

/-- The output of a format: its characters outside of conversions in order, and a field in the
place of each conversion. -/
inductive Renders : List Byte → List Byte → Prop
  | nil : Renders [] []
  | plain {c : Byte} {s out : List Byte} (hc : c ≠ '%'.toUInt8) (hrest : Renders s out) :
      Renders (c :: s) (c :: out)
  | conversion {s out : List Byte} (field : List Byte) (hrest : Renders (afterConversion s) out) :
      Renders ('%'.toUInt8 :: s) (field ++ out)

theorem afterDigits_suffix (s : List Byte) : afterDigits s <:+ s := by
  cases s with
  | nil => exact List.suffix_rfl
  | cons c s =>
      rw [afterDigits]
      split
      · exact List.suffix_cons c s
      · exact List.dropWhile_suffix _

theorem afterPrecision_suffix (s : List Byte) : afterPrecision s <:+ s := by
  cases s with
  | nil => exact List.suffix_rfl
  | cons c s =>
      rw [afterPrecision]
      split
      · exact (afterDigits_suffix s).trans (List.suffix_cons c s)
      · exact List.suffix_rfl

theorem afterSpec_suffix (s : List Byte) : afterSpec s <:+ s :=
  calc afterSpec s <:+ afterPrecision (afterDigits (s.dropWhile isFlag)) :=
        List.dropWhile_suffix _
    _ <:+ afterDigits (s.dropWhile isFlag) := afterPrecision_suffix _
    _ <:+ s.dropWhile isFlag := afterDigits_suffix _
    _ <:+ s := List.dropWhile_suffix _

/-! ## The stages -/

/-- The cursor at the start of a string that ends with a NUL. -/
theorem cstr_append_cons (c : Byte) (s rest : List Byte) :
    cstr (c :: s) ++ rest = c :: (cstr s ++ rest) := rfl

section

variable {s : List Byte} (hs : 0 ∉ s) (ap : VaList)

theorem skipAtoi_cstr (s : List Byte) (i : Int) :
    ∃ n, ∀ rest, skipAtoi (cstr s ++ rest) i = some (n, cstr (s.dropWhile isDigit) ++ rest) := by
  induction s generalizing i with
  | nil => exact ⟨i, fun rest => rfl⟩
  | cons c s ih =>
      by_cases hc : isDigit c = true
      · obtain ⟨n, hn⟩ := ih (wrapInt (i * 10 + charVal c - charVal '0'.toUInt8))
        refine ⟨n, fun rest => ?_⟩
        rw [cstr_append_cons, skipAtoi, if_pos hc, hn rest, List.dropWhile_cons_of_pos hc]
      · refine ⟨i, fun rest => ?_⟩
        rw [cstr_append_cons, skipAtoi, if_neg hc, List.dropWhile_cons_of_neg hc]
        rfl

/-- The bits that only a conversion character sets. -/
def FormatFlags.Unset (flag : FormatFlags) : Prop :=
  flag.sign = false ∧ flag.plus = false ∧ flag.small = false

theorem getFlagLoop_cstr (s : List Byte) {flag : FormatFlags} (hflag : flag.Unset) :
    ∃ flag', flag'.Unset ∧ ∀ rest, getFlagLoop flag (cstr s ++ rest) =
      some (flag', cstr (s.dropWhile isFlag) ++ rest) := by
  induction s generalizing flag with
  | nil =>
      refine ⟨if flag.left then { flag with zero := false } else flag, ?_, fun rest => rfl⟩
      split
      · exact hflag
      · exact hflag
  | cons c s ih =>
      by_cases hc : isFlag c = true
      · have hstep : ∃ next : FormatFlags, next.Unset ∧ ∀ fmt,
            getFlagLoop flag (c :: fmt) = getFlagLoop next fmt := by
          simp only [isFlag, Bool.or_eq_true, decide_eq_true_eq] at hc
          rcases hc with ((rfl | rfl) | rfl) | rfl
          · exact ⟨{ flag with left := true }, hflag, fun fmt => rfl⟩
          · exact ⟨{ flag with zero := true }, hflag, fun fmt => rfl⟩
          · exact ⟨{ flag with space := true }, hflag, fun fmt => rfl⟩
          · exact ⟨{ flag with special := true }, hflag, fun fmt => rfl⟩
        obtain ⟨next, hnext, hloop⟩ := hstep
        obtain ⟨flag', hunset, hrest⟩ := ih hnext
        refine ⟨flag', hunset, fun rest => ?_⟩
        rw [cstr_append_cons, hloop, hrest rest, List.dropWhile_cons_of_pos hc]
      · refine ⟨if flag.left then { flag with zero := false } else flag, ?_, fun rest => ?_⟩
        · split
          · exact hflag
          · exact hflag
        · have hno := hc
          simp only [isFlag, Bool.or_eq_true, decide_eq_true_eq, not_or] at hno
          rw [cstr_append_cons, getFlagLoop, if_neg hno.1.1.1, if_neg hno.1.1.2, if_neg hno.1.2,
            if_neg hno.2, List.dropWhile_cons_of_neg hc]
          rfl

/-- The arguments behind a width or the digits of a precision. -/
def VaList.afterDigits (ap : VaList) : List Byte → VaList
  | [] => ap
  | c :: _ => if c = '*'.toUInt8 then ap.next.2 else ap

/-- The arguments behind a precision. -/
def VaList.afterPrecision (ap : VaList) : List Byte → VaList
  | [] => ap
  | c :: s => if c = '.'.toUInt8 then ap.afterDigits s else ap

/-- The arguments behind a width and a precision. -/
def VaList.afterSpec (ap : VaList) (s : List Byte) : VaList :=
  (ap.afterDigits (s.dropWhile isFlag)).afterPrecision
    (ClayFigure.afterDigits (s.dropWhile isFlag))

/-- The last of the qualifiers a text begins with. -/
def lastQualifier (qualifier : Byte) (s : List Byte) : Byte :=
  (s.takeWhile isQualifier).getLastD qualifier

theorem not_isDigit_star : ¬ isDigit '*'.toUInt8 = true := by decide

theorem getDigits_cstr (s : List Byte) : ∃ n, ∀ rest, getDigits ap (cstr s ++ rest) =
    some (n, ap.afterDigits s, cstr (afterDigits s) ++ rest) := by
  cases s with
  | nil => exact ⟨-1, fun rest => rfl⟩
  | cons c s =>
      by_cases hdigit : isDigit c = true
      · have hstar : ¬ c = '*'.toUInt8 := fun h => not_isDigit_star (h ▸ hdigit)
        obtain ⟨n, hn⟩ := skipAtoi_cstr (c :: s) 0
        refine ⟨n, fun rest => ?_⟩
        rw [cstr_append_cons, getDigits, if_pos hdigit, ← cstr_append_cons, hn rest,
          VaList.afterDigits, if_neg hstar, afterDigits, if_neg hstar]
        rfl
      · by_cases hstar : c = '*'.toUInt8
        · refine ⟨intOf ap.next.1, fun rest => ?_⟩
          rw [cstr_append_cons, getDigits, if_neg hdigit, if_pos hstar, VaList.afterDigits,
            if_pos hstar, afterDigits, if_pos hstar]
        · refine ⟨-1, fun rest => ?_⟩
          rw [cstr_append_cons, getDigits, if_neg hdigit, if_neg hstar, VaList.afterDigits,
            if_neg hstar, afterDigits, if_neg hstar, List.dropWhile_cons_of_neg hdigit]
          rfl

theorem getWidth_cstr (s : List Byte) {flag : FormatFlags} (hflag : flag.Unset) :
    ∃ width flag', flag'.Unset ∧ ∀ rest, getWidth flag ap (cstr s ++ rest) =
      some (width, flag', ap.afterDigits s, cstr (afterDigits s) ++ rest) := by
  cases s with
  | nil => exact ⟨-1, flag, hflag, fun rest => rfl⟩
  | cons c s =>
      by_cases hdigit : isDigit c = true
      · have hstar : ¬ c = '*'.toUInt8 := fun h => not_isDigit_star (h ▸ hdigit)
        obtain ⟨n, hn⟩ := skipAtoi_cstr (c :: s) 0
        refine ⟨n, flag, hflag, fun rest => ?_⟩
        rw [cstr_append_cons, getWidth, if_pos hdigit, ← cstr_append_cons, hn rest,
          VaList.afterDigits, if_neg hstar, afterDigits, if_neg hstar]
        rfl
      · by_cases hstar : c = '*'.toUInt8
        · simp only [cstr_append_cons, getWidth, if_neg hdigit, if_pos hstar, VaList.afterDigits,
            afterDigits]
          split
          · exact ⟨_, { flag with left := true }, hflag, fun rest => rfl⟩
          · exact ⟨_, flag, hflag, fun rest => rfl⟩
        · refine ⟨-1, flag, hflag, fun rest => ?_⟩
          rw [cstr_append_cons, getWidth, if_neg hdigit, if_neg hstar, VaList.afterDigits,
            if_neg hstar, afterDigits, if_neg hstar, List.dropWhile_cons_of_neg hdigit]
          rfl

theorem getPrecision_cstr (s : List Byte) : ∃ precision, ∀ rest,
    getPrecision ap (cstr s ++ rest) =
      some (precision, ap.afterPrecision s, cstr (afterPrecision s) ++ rest) := by
  cases s with
  | nil => exact ⟨-1, fun rest => rfl⟩
  | cons c s =>
      by_cases hdot : c = '.'.toUInt8
      · obtain ⟨n, hn⟩ := getDigits_cstr ap s
        refine ⟨if n < 0 then 0 else n, fun rest => ?_⟩
        rw [cstr_append_cons, getPrecision, if_pos hdot, hn rest, VaList.afterPrecision,
          if_pos hdot, afterPrecision, if_pos hdot]
        rfl
      · refine ⟨-1, fun rest => ?_⟩
        rw [cstr_append_cons, getPrecision, if_neg hdot, VaList.afterPrecision, if_neg hdot,
          afterPrecision, if_neg hdot]
        rfl

theorem getQualifier_cstr (s : List Byte) (qualifier : Byte) (rest : List Byte) :
    getQualifier qualifier (cstr s ++ rest) =
      some (lastQualifier qualifier s, cstr (s.dropWhile isQualifier) ++ rest) := by
  induction s generalizing qualifier with
  | nil => rfl
  | cons c s ih =>
      rw [cstr_append_cons, getQualifier]
      by_cases hc : isQualifier c = true
      · rw [if_pos hc, ih, List.dropWhile_cons_of_pos hc, lastQualifier, lastQualifier,
          List.takeWhile_cons_of_pos hc, List.getLastD_cons]
      · rw [if_neg hc, List.dropWhile_cons_of_neg hc, lastQualifier, List.takeWhile_cons_of_neg hc]
        rfl

/-- From the `%` of a conversion to its character, which may be the NUL of the format. -/
theorem getSpec_cstr (s : List Byte) : ∃ spec : FormatSpec, spec.flag.Unset ∧
    spec.qualifier = lastQualifier 0 (afterPrecision (afterDigits (s.dropWhile isFlag))) ∧
    ∀ rest, getSpec ap ('%'.toUInt8 :: (cstr s ++ rest)) =
      some (spec, ap.afterSpec s, cstr (afterSpec s) ++ rest) := by
  obtain ⟨flag₁, hflag₁, hflags⟩ :=
    getFlagLoop_cstr s (show FormatFlags.Unset {} from ⟨rfl, rfl, rfl⟩)
  obtain ⟨width, flag, hflag, hwidth⟩ := getWidth_cstr ap (s.dropWhile isFlag) hflag₁
  obtain ⟨precision, hprecision⟩ := getPrecision_cstr (ap.afterDigits (s.dropWhile isFlag))
    (afterDigits (s.dropWhile isFlag))
  refine ⟨⟨flag, width, precision, _⟩, hflag, rfl, fun rest => ?_⟩
  rw [getSpec, List.drop_one, List.tail_cons, hflags rest]
  simp only [Option.bind_eq_bind, Option.bind_some, hwidth rest, hprecision rest,
    getQualifier_cstr, Option.pure_def]
  rfl

/-! ## Conversions -/

theorem wordOfInt_lt (x : Int) : wordOfInt x < 2 ^ 64 := by
  unfold wordOfInt
  omega

theorem VaList.next_lt : ap.next.1 < 2 ^ 64 := (ap.words 0).toNat_lt

/-- The number that `%d`, `%i`, `%u` and `%o` pass on. -/
def intArgument (spec : FormatSpec) (ap : VaList) : Nat :=
  if spec.qualifier = 'l'.toUInt8 then ap.next.1 else wordOfInt (intOf ap.next.1)

/-- The number that `%x` and `%X` pass on. -/
def hexArgument (spec : FormatSpec) (ap : VaList) : Nat :=
  if spec.qualifier = 'l'.toUInt8 then ap.next.1 else ap.next.1 % 0x100000000

theorem convertInt_printedNumber (spec : FormatSpec) {base : Nat} (hbase : PrintBase base)
    (flag : FormatFlags) : ∃ stored, convertInt spec base flag ap = some (stored, ap.next.2) ∧
      printedNumber base stored = some (numberValue (intArgument spec ap) flag) := by
  have hnum : intArgument spec ap < 2 ^ 64 := by
    unfold intArgument
    split
    · exact ap.next_lt
    · exact wordOfInt_lt _
  obtain ⟨stored, hstored, hread⟩ :=
    numberToString_printedNumber hbase hnum spec.width spec.precision flag
  refine ⟨stored, ?_, hread⟩
  rw [convertInt, ← intArgument, hstored]
  rfl

theorem convertHex_printedNumber (spec : FormatSpec) (flag : FormatFlags) :
    ∃ stored, convertHex spec flag ap = some (stored, ap.next.2) ∧
      printedNumber 16 stored = some (numberValue (hexArgument spec ap) flag) := by
  have hword := ap.next_lt
  have hnum : hexArgument spec ap < 2 ^ 64 := by
    unfold hexArgument
    split <;> omega
  obtain ⟨stored, hstored, hread⟩ := numberToString_printedNumber (Or.inr (Or.inr rfl)) hnum
    spec.width spec.precision flag
  refine ⟨stored, ?_, hread⟩
  rw [convertHex, ← hexArgument, hstored]
  rfl

theorem convertPointer_isSome (spec : FormatSpec) :
    ∃ stored, convertPointer spec ap = some (stored, ap.next.2) := by
  unfold convertPointer
  obtain ⟨stored, hstored, -⟩ := numberToString_printedNumber (Or.inr (Or.inr rfl)) ap.next_lt
    (if spec.width = -1 then ((16 : Int), { spec.flag with zero := true })
      else (spec.width, spec.flag)).1 spec.precision
    (if spec.width = -1 then ((16 : Int), { spec.flag with zero := true })
      else (spec.width, spec.flag)).2
  refine ⟨stored, ?_⟩
  simp only [hstored, Option.map_some]

/-- A case of the `switch` that stores something, or the `default`. -/
def StoresOrNone (result : Option (Option (List Byte × VaList))) : Prop :=
  (∃ stored ap', result = some (some (stored, ap'))) ∨ result = none

theorem storesOrNone_some (stored : List Byte) (ap' : VaList) :
    StoresOrNone (some (some (stored, ap'))) :=
  Or.inl ⟨stored, ap', rfl⟩

theorem storesOrNone_ite {p : Prop} [Decidable p] {a b : Option (Option (List Byte × VaList))}
    (ha : StoresOrNone a) (hb : StoresOrNone b) : StoresOrNone (if p then a else b) :=
  iteInduction (fun _ => ha) fun _ => hb

/-- Every conversion that is known stores something. -/
theorem convert_storesOrNone (env : FormatEnv) (spec : FormatSpec) (c : Byte) :
    StoresOrNone (convert env spec ap c) := by
  have hint (base : Nat) (hbase : PrintBase base) (flag : FormatFlags) :
      StoresOrNone (some (convertInt spec base flag ap)) := by
    obtain ⟨stored, hstored, -⟩ := convertInt_printedNumber ap spec hbase flag
    rw [hstored]
    exact storesOrNone_some _ _
  have hhex (flag : FormatFlags) : StoresOrNone (some (convertHex spec flag ap)) := by
    obtain ⟨stored, hstored, -⟩ := convertHex_printedNumber ap spec flag
    rw [hstored]
    exact storesOrNone_some _ _
  have hpointer : StoresOrNone (some (convertPointer spec ap)) := by
    obtain ⟨stored, hstored⟩ := convertPointer_isSome ap spec
    rw [hstored]
    exact storesOrNone_some _ _
  unfold convert
  apply storesOrNone_ite (storesOrNone_some _ _)
  apply storesOrNone_ite (storesOrNone_some _ _)
  apply storesOrNone_ite (hint 10 (Or.inr (Or.inl rfl)) _)
  apply storesOrNone_ite (hint 10 (Or.inr (Or.inl rfl)) _)
  apply storesOrNone_ite (hint 8 (Or.inl rfl) _)
  apply storesOrNone_ite hpointer
  apply storesOrNone_ite (storesOrNone_some _ _)
  apply storesOrNone_ite (hhex _)
  apply storesOrNone_ite (hhex _)
  apply storesOrNone_ite (storesOrNone_some _ _)
  exact Or.inr rfl

variable (env : FormatEnv)

/-- A pass of the loop that finds a `%` comes to what is behind the conversion. -/
theorem formatConversion_cstr {s : List Byte} (hs : 0 ∉ s) : ∃ stored ap', ∀ rest,
    formatConversion env ap ('%'.toUInt8 :: (cstr s ++ rest)) =
      some (stored, ap', cstr (afterConversion s) ++ rest) := by
  obtain ⟨spec, -, -, hspec⟩ := getSpec_cstr ap s
  cases hafter : afterSpec s with
  | nil =>
      refine ⟨['%'.toUInt8], ap.afterSpec s, fun rest => ?_⟩
      rw [formatConversion, hspec rest, afterConversion, hafter]
      rfl
  | cons c t =>
      have hc : c ≠ 0 := by
        rintro rfl
        have hmem : 0 ∈ afterSpec s := by
          rw [hafter]
          exact List.mem_cons_self
        exact hs ((afterSpec_suffix s).subset hmem)
      rcases convert_storesOrNone (ap.afterSpec s) env spec c with
        ⟨stored, ap', hconvert⟩ | hconvert
      · refine ⟨stored, ap', fun rest => ?_⟩
        rw [formatConversion, hspec rest, afterConversion, hafter]
        simp only [Option.bind_eq_bind, Option.bind_some, cstr_append_cons, hconvert]
        rfl
      · refine ⟨['%'.toUInt8, c], ap.afterSpec s, fun rest => ?_⟩
        rw [formatConversion, hspec rest, afterConversion, hafter]
        simp only [Option.bind_eq_bind, Option.bind_some, cstr_append_cons, hconvert, if_pos hc]
        rfl

theorem length_afterConversion_le (s : List Byte) : (afterConversion s).length ≤ s.length := by
  rw [afterConversion, List.length_drop]
  exact (Nat.sub_le _ _).trans (afterSpec_suffix s).length_le

theorem afterConversion_subset (s : List Byte) : afterConversion s ⊆ s :=
  fun _ h => (afterSpec_suffix s).subset (List.mem_of_mem_drop h)

/-- The loop comes to the NUL in as many passes as the format has characters at most. -/
theorem formatLoop_renders (n : Nat) : ∀ (s : List Byte) (ap : VaList), s.length ≤ n → 0 ∉ s →
    ∃ out, Renders s out ∧ ∀ rest fuel, n < fuel →
      formatLoop env fuel ap (cstr s ++ rest) = some out := by
  induction n with
  | zero =>
      intro s ap hlen _
      rw [List.length_eq_zero_iff.mp (Nat.le_zero.mp hlen)]
      refine ⟨[], .nil, fun rest fuel hfuel => ?_⟩
      obtain ⟨fuel, rfl⟩ := Nat.exists_eq_succ_of_ne_zero (Nat.ne_of_gt hfuel)
      rfl
  | succ n ih =>
      intro s ap hlen hs
      cases s with
      | nil =>
          refine ⟨[], .nil, fun rest fuel hfuel => ?_⟩
          obtain ⟨fuel, rfl⟩ :=
            Nat.exists_eq_succ_of_ne_zero (Nat.ne_of_gt (Nat.zero_lt_of_lt hfuel))
          rfl
      | cons c s =>
          rw [List.mem_cons, not_or] at hs
          have hlen : s.length ≤ n := Nat.le_of_succ_le_succ hlen
          by_cases hc : c = '%'.toUInt8
          · obtain ⟨stored, ap', hpass⟩ := formatConversion_cstr ap env hs.2
            obtain ⟨out, hout, hloop⟩ := ih (afterConversion s) ap'
              ((length_afterConversion_le s).trans hlen)
              fun h => hs.2 (afterConversion_subset s h)
            refine ⟨stored ++ out, hc ▸ .conversion stored hout, fun rest fuel hfuel => ?_⟩
            obtain ⟨fuel, rfl⟩ :=
              Nat.exists_eq_succ_of_ne_zero (Nat.ne_of_gt (Nat.zero_lt_of_lt hfuel))
            rw [cstr_append_cons, formatLoop, if_neg (Ne.symm hs.1), if_neg (not_not.mpr hc), hc,
              hpass rest]
            simp only [Option.bind_eq_bind, Option.bind_some,
              hloop rest fuel (Nat.lt_of_succ_lt_succ hfuel), Option.pure_def]
          · obtain ⟨out, hout, hloop⟩ := ih s ap hlen hs.2
            refine ⟨c :: out, .plain hc hout, fun rest fuel hfuel => ?_⟩
            obtain ⟨fuel, rfl⟩ :=
              Nat.exists_eq_succ_of_ne_zero (Nat.ne_of_gt (Nat.zero_lt_of_lt hfuel))
            rw [cstr_append_cons, formatLoop, if_neg (Ne.symm hs.1), if_pos hc,
              hloop rest fuel (Nat.lt_of_succ_lt_succ hfuel)]
            rfl

end

theorem strlen_isSome (s : List Byte) : ∃ n, strlen (cstr s) = some n := by
  induction s with
  | nil => exact ⟨0, rfl⟩
  | cons b s ih =>
      obtain ⟨n, hn⟩ := ih
      show ∃ n, (if b = 0 then some 0 else (strlen (cstr s)).map (· + 1)) = some n
      rw [hn]
      split
      · exact ⟨0, rfl⟩
      · exact ⟨n + 1, rfl⟩

/-- `vsprintf` ends on every format without reading behind its NUL, and its output does not depend
on what is there. -/
theorem vsprintf_renders (env : FormatEnv) {s : List Byte} (hs : 0 ∉ s) (ap : VaList) :
    ∃ out n, Renders s out ∧ ∀ rest, vsprintf env (cstr s ++ rest) ap = some (out, n) := by
  obtain ⟨out, hout, hloop⟩ := formatLoop_renders env s.length s ap (le_refl _) hs
  obtain ⟨n, hn⟩ := strlen_isSome out
  refine ⟨out, n, hout, fun rest => ?_⟩
  have hfuel : s.length < (cstr s ++ rest).length + 1 := by
    rw [cstr, List.append_assoc, List.length_append]
    omega
  simp only [vsprintf, hloop rest _ hfuel, Option.bind_eq_bind, Option.bind_some, hn,
    Option.pure_def]

/-- No strings and no doubles. -/
def plainEnv : FormatEnv where
  strings _ := ⟨[], List.not_mem_nil⟩
  floatToString _ _ _ _ := []

/-- The format `a%-5` ends in a width. -/
theorem vsprintf_renders_cut : ∃ out n,
    Renders (['a', '%', '-', '5'].map Char.toUInt8) out ∧
      vsprintf plainEnv (cstr (['a', '%', '-', '5'].map Char.toUInt8))
        ⟨fun _ => 0, fun _ => 0⟩ = some (out, n) := by
  obtain ⟨out, n, hout, hrun⟩ := @vsprintf_renders plainEnv
    (['a', '%', '-', '5'].map Char.toUInt8) (by decide) ⟨fun _ => 0, fun _ => 0⟩
  have h := hrun []
  rw [List.append_nil] at h
  exact ⟨out, n, hout, h⟩

/-! ## Texts with plain conversions -/

/-- What `%d` stores for an argument. -/
def decimal (word : Nat) : List Byte :=
  numberField (wordOfInt (intOf word)) 10 (-1) (-1) { sign := true }

/-- The length of an `int` in digits, with its sign. -/
def decimalLength (word : Nat) : Nat :=
  (if intOf word < 0 then 1 else 0) + (numeral false 10 (intOf word).natAbs).length

theorem intOf_range (word : Nat) : -0x80000000 ≤ intOf word ∧ intOf word < 0x80000000 := by
  unfold intOf wrapInt
  omega

theorem numberValue_wordOfInt {x : Int} (hlo : -0x80000000 ≤ x) (hhi : x < 0x80000000)
    {flag : FormatFlags} (hflag : flag.sign = true) : numberValue (wordOfInt x) flag = x := by
  have hpow : (2 : Int) ^ 64 = 0x10000000000000000 := by decide
  have hhalf : 2 ^ 63 = 0x8000000000000000 := by decide
  unfold numberValue wordOfInt
  simp only [hflag, true_and, hpow, hhalf]
  split <;> omega

theorem length_decimal (word : Nat) : (decimal word).length = decimalLength word := by
  obtain ⟨hlo, hhi⟩ := intOf_range word
  have hsign : ({ sign := true } : FormatFlags).sign = true := rfl
  have hvalue := numberValue_wordOfInt hlo hhi hsign
  rw [decimal, length_numberField, bodyLength, digitCount, digitsOf, signOf, hvalue, decimalLength]
  by_cases hneg : intOf word < 0
  · rw [if_pos hneg, if_pos hneg]
    simp [basePrefix]
  · rw [if_neg hneg, if_neg hneg]
    simp [basePrefix]

section Plain

variable (env : FormatEnv) (fuel : Nat) (ap : VaList) (fmt : List Byte)

/-- Characters without a `%` are copied. -/
theorem formatLoop_text {s : List Byte} {n : Nat} (hn : n = s.length + fuel)
    (hs : s.all fun c => c ≠ 0 ∧ c ≠ '%'.toUInt8) :
    formatLoop env n ap (s ++ fmt) = (formatLoop env fuel ap fmt).map (s ++ ·) := by
  induction s generalizing n with
  | nil =>
      rw [List.length_nil, Nat.zero_add] at hn
      rw [hn, List.nil_append]
      exact Option.map_id'.symm
  | cons c s ih =>
      rw [List.all_cons, Bool.and_eq_true, decide_eq_true_eq] at hs
      obtain ⟨⟨hzero, hpercent⟩, hs⟩ := hs
      rw [List.length_cons, Nat.succ_add] at hn
      rw [hn, List.cons_append, formatLoop, if_neg hzero, if_pos hpercent, ih rfl hs,
        Option.map_map]
      rfl

variable {env} {ap} {ap' : VaList} {stored : List Byte} {c : Byte}

/-- A pass over a conversion. -/
theorem formatLoop_conversion {spec : FormatSpec} {ap'' : VaList}
    (hspec : getSpec ap ('%'.toUInt8 :: c :: fmt) = some (spec, ap', c :: fmt))
    (hconvert : convert env spec ap' c = some (some (stored, ap''))) :
    formatLoop env (fuel + 1) ap ('%'.toUInt8 :: c :: fmt) =
      (formatLoop env fuel ap'' fmt).map (stored ++ ·) := by
  have hpass : formatConversion env ap ('%'.toUInt8 :: c :: fmt) = some (stored, ap'', fmt) := by
    simp only [formatConversion, hspec, Option.bind_eq_bind, Option.bind_some, hconvert,
      Option.map_some]
  rw [formatLoop, if_neg (by decide), if_neg (not_not.mpr rfl), hpass]
  simp only [Option.bind_eq_bind, Option.bind_some, Option.pure_def, Option.map_eq_bind,
    Function.comp_def]

/-- `%s`. -/
theorem formatLoop_string : formatLoop env (fuel + 1) ap ('%'.toUInt8 :: 's'.toUInt8 :: fmt) =
    (formatLoop env fuel ap.next.2 fmt).map ((env.strings ap.next.1).bytes ++ ·) :=
  formatLoop_conversion fuel fmt rfl rfl

/-- `%d`. -/
theorem formatLoop_decimal : formatLoop env (fuel + 1) ap ('%'.toUInt8 :: 'd'.toUInt8 :: fmt) =
    (formatLoop env fuel ap.next.2 fmt).map (decimal ap.next.1 ++ ·) := by
  have hspec : getSpec ap ('%'.toUInt8 :: 'd'.toUInt8 :: fmt) =
      some (⟨{}, -1, -1, 0⟩, ap, 'd'.toUInt8 :: fmt) := rfl
  refine formatLoop_conversion fuel fmt hspec ?_
  have hnumber : numberToString (wordOfInt (intOf ap.next.1)) 10 (-1) (-1) { sign := true } =
      some (decimal ap.next.1) := by
    rw [decimal]
    exact (numberToString_numberField (.inr (.inl rfl)) (wordOfInt_lt _) (by decide) (by decide)
      _).1
  rw [convert, if_neg (by decide), if_neg (by decide), if_pos (by decide), convertInt]
  rw [if_neg (by decide), hnumber, Option.map_some]

end Plain
end ClayFigure
