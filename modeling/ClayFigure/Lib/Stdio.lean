/-
# Formatted output

The formatter of `lib/stdio.c`. The kernel is built with `-fwrapv`, so an `int` wraps. What a
function stores from `str` on is the list of the bytes, and the `str` it returns is behind them.
A format is the list of the bytes that can be read from it on, a cursor in it what is left of this
list; `none` is a read behind it.
-/

import ClayFigure.Lib.String

namespace ClayFigure

/-- An `int` that has left its range. -/
def wrapInt (x : Int) : Int := (x + 0x80000000) % 0x100000000 - 0x80000000

/-- The bits of `flag`. -/
structure FormatFlags where
  left : Bool := false
  space : Bool := false
  zero : Bool := false
  sign : Bool := false
  plus : Bool := false
  special : Bool := false
  small : Bool := false
  deriving DecidableEq, Repr

/-! ## Numbers -/

/-- `IS_DIGIT`. -/
def isDigit (c : Byte) : Bool := '0'.toUInt8 ≤ c && c ≤ '9'.toUInt8

/-- `skip_atoi`, called with `i` in its loop: the number and the cursor behind it. -/
def skipAtoi : List Byte → Int → Option (Int × List Byte)
  | [], _ => none
  | c :: s, i =>
      if isDigit c then skipAtoi s (wrapInt (i * 10 + charVal c - charVal '0'.toUInt8))
      else some (i, c :: s)

/-- `digits[i]`. -/
def digitByte (small : Bool) (i : Nat) : Byte :=
  if i < 10 then '0'.toUInt8 + UInt8.ofNat i
  else (if small then 'a'.toUInt8 else 'A'.toUInt8) + UInt8.ofNat (i - 10)

/-- `while (n-- > limit) *str++ = c;` for at most `fuel` passes: what is stored, and `n` behind
it. -/
def fillLoop (c : Byte) (limit : Int) : Nat → Int → List Byte × Int
  | 0, n => ([], n)
  | fuel + 1, n =>
      if limit < n then
        let (stored, n) := fillLoop c limit fuel (n - 1)
        (c :: stored, n)
      else ([], wrapInt (n - 1))

/-- The same loop; it makes `n - limit` passes and a last test. -/
def fill (c : Byte) (limit n : Int) : List Byte × Int :=
  fillLoop c limit ((n - limit).toNat + 1) n

/-- The loop that stores the digits of `num` in `tmp`, the lowest first, with room for as many;
`none` is a store behind `tmp`. -/
def digitLoop (small : Bool) (base : Nat) : Nat → Nat → Option (List Byte)
  | 0, num => if num = 0 then some [] else none
  | room + 1, num =>
      if num = 0 then some []
      else (digitLoop small base room (num / base)).map (digitByte small (num % base) :: ·)

/-- The sign character that is stored, if any, and the number behind it. -/
def takeSign (num : Nat) (flag : FormatFlags) : List Byte × Nat :=
  if flag.sign ∧ 2 ^ 63 ≤ num then (['-'.toUInt8], sub64 0 num)
  else if flag.plus then (['+'.toUInt8], num)
  else if flag.space then ([' '.toUInt8], num)
  else ([], num)

/-- What is stored in front of the digits for `FORMAT_SPECIAL`. -/
def basePrefix (base : Nat) (flag : FormatFlags) : List Byte :=
  if flag.special then
    if base = 8 then ['0'.toUInt8]
    else if base = 16 then ['0'.toUInt8, digitByte flag.small 33]
    else []
  else []

/-- What `number_to_string` stores once the sign is known and the digits are in `tmp`. -/
def storeNumber (base : Nat) (sign tmp : List Byte) (width precision : Int) (flag : FormatFlags) :
    List Byte :=
  let pad := if flag.zero then '0'.toUInt8 else ' '.toUInt8
  let width := if sign ≠ [] then wrapInt (width - 1) else width
  let width := wrapInt (width - (basePrefix base flag).length)
  let precision := if precision < tmp.length then (tmp.length : Int) else precision
  let width := wrapInt (width - precision)
  let left := if ¬ flag.zero ∧ ¬ flag.left then fill ' '.toUInt8 0 width else ([], width)
  let middle := if ¬ flag.left then fill pad 0 left.2 else ([], left.2)
  let zeros := fill '0'.toUInt8 tmp.length precision
  let right := fill ' '.toUInt8 0 middle.2
  left.1 ++ sign ++ basePrefix base flag ++ middle.1 ++ zeros.1 ++ tmp.reverse ++ right.1

/-- `number_to_string`; it returns 0 for a `base` that it does not know. -/
def numberToString (num base : Nat) (width precision : Int) (flag : FormatFlags) :
    Option (List Byte) :=
  if base < 2 ∨ 36 < base then none
  else
    let sign := takeSign num flag
    let tmp := if sign.2 = 0 then some ['0'.toUInt8] else digitLoop flag.small base 50 sign.2
    tmp.map fun tmp => storeNumber base sign.1 tmp width precision flag

/-! ## Arguments -/

/-- `va_list`: the arguments to come that are in 64-bit slots, and those that are `double`. -/
structure VaList where
  words : Nat → UInt64
  doubles : Nat → UInt64

namespace VaList

/-- `va_arg` of a type in a 64-bit slot: the slot and the rest. -/
def next (ap : VaList) : Nat × VaList :=
  ((ap.words 0).toNat, { ap with words := fun i => ap.words (i + 1) })

/-- `va_arg(ap, double)`. -/
def nextDouble (ap : VaList) : UInt64 × VaList :=
  (ap.doubles 0, { ap with doubles := fun i => ap.doubles (i + 1) })

end VaList

/-- A slot read as an `int`. -/
def intOf (word : Nat) : Int := wrapInt word

/-- An `int` passed as a `uint64_t`. -/
def wordOfInt (x : Int) : Nat := (x % 0x10000000000000000).toNat

/-- A string that `%s` prints, without its zero. -/
structure CString where
  bytes : List Byte
  plain : 0 ∉ bytes

/-- What the formatter finds outside of it: the string at an address, and what `float_to_string`
stores for a `double`, `width`, `precision` and `flag`. -/
structure FormatEnv where
  strings : Nat → CString
  floatToString : UInt64 → Int → Int → FormatFlags → List Byte

/-! ## The format -/

/-- The loop of `get_flag` behind its first `(*fmt)++`. -/
def getFlagLoop : FormatFlags → List Byte → Option (FormatFlags × List Byte)
  | _, [] => none
  | flag, c :: fmt =>
      if c = '-'.toUInt8 then getFlagLoop { flag with left := true } fmt
      else if c = '0'.toUInt8 then getFlagLoop { flag with zero := true } fmt
      else if c = ' '.toUInt8 then getFlagLoop { flag with space := true } fmt
      else if c = '#'.toUInt8 then getFlagLoop { flag with special := true } fmt
      else some (if flag.left then { flag with zero := false } else flag, c :: fmt)

/-- The part of `vsprintf` that reads a field width. -/
def getWidth (flag : FormatFlags) (ap : VaList) :
    List Byte → Option (Int × FormatFlags × VaList × List Byte)
  | [] => none
  | c :: fmt =>
      if isDigit c then (skipAtoi (c :: fmt) 0).map fun (width, fmt) => (width, flag, ap, fmt)
      else if c = '*'.toUInt8 then
        let width := intOf ap.next.1
        if width < 0 then some (wrapInt (-width), { flag with left := true }, ap.next.2, fmt)
        else some (width, flag, ap.next.2, fmt)
      else some (-1, flag, ap, c :: fmt)

/-- What is behind the `.` of a precision. -/
def getDigits (ap : VaList) : List Byte → Option (Int × VaList × List Byte)
  | [] => none
  | c :: fmt =>
      if isDigit c then (skipAtoi (c :: fmt) 0).map fun (n, fmt) => (n, ap, fmt)
      else if c = '*'.toUInt8 then some (intOf ap.next.1, ap.next.2, fmt)
      else some (-1, ap, c :: fmt)

/-- The part of `vsprintf` that reads a precision. -/
def getPrecision (ap : VaList) : List Byte → Option (Int × VaList × List Byte)
  | [] => none
  | c :: fmt =>
      if c = '.'.toUInt8 then
        (getDigits ap fmt).map fun (precision, ap, fmt) =>
          (if precision < 0 then 0 else precision, ap, fmt)
      else some (-1, ap, c :: fmt)

/-- `*fmt == 'h' || *fmt == 'l' || *fmt == 'L' || *fmt == 'Z'`. -/
def isQualifier (c : Byte) : Bool :=
  c = 'h'.toUInt8 || c = 'l'.toUInt8 || c = 'L'.toUInt8 || c = 'Z'.toUInt8

/-- The loop over the qualifiers; the last one counts. -/
def getQualifier : Byte → List Byte → Option (Byte × List Byte)
  | _, [] => none
  | qualifier, c :: fmt =>
      if isQualifier c then getQualifier c fmt else some (qualifier, c :: fmt)

/-- `while (--n > 0) *str++ = ' ';`: what is stored, and `n` behind it. -/
def fillBefore (n : Int) : List Byte × Int :=
  let n := wrapInt (n - 1)
  (List.replicate n.toNat ' '.toUInt8, min n 0)

/-- What stands between the `%` and the conversion character. -/
structure FormatSpec where
  flag : FormatFlags
  width : Int
  precision : Int
  qualifier : Byte

/-- `%d`, `%i`, `%u` and `%o`, which differ in `base` and `flag`. -/
def convertInt (spec : FormatSpec) (base : Nat) (flag : FormatFlags) (ap : VaList) :
    Option (List Byte × VaList) :=
  let num := if spec.qualifier = 'l'.toUInt8 then ap.next.1 else wordOfInt (intOf ap.next.1)
  (numberToString num base spec.width spec.precision flag).map (·, ap.next.2)

/-- `%x` and `%X`. -/
def convertHex (spec : FormatSpec) (flag : FormatFlags) (ap : VaList) :
    Option (List Byte × VaList) :=
  let num := if spec.qualifier = 'l'.toUInt8 then ap.next.1 else ap.next.1 % 0x100000000
  (numberToString num 16 spec.width spec.precision flag).map (·, ap.next.2)

/-- `%p`. -/
def convertPointer (spec : FormatSpec) (ap : VaList) : Option (List Byte × VaList) :=
  let (width, flag) :=
    if spec.width = -1 then (16, { spec.flag with zero := true }) else (spec.width, spec.flag)
  (numberToString ap.next.1 16 width spec.precision flag).map (·, ap.next.2)

/-- `%c`. -/
def convertChar (spec : FormatSpec) (ap : VaList) : List Byte × VaList :=
  let (left, width) := if spec.flag.left then ([], spec.width) else fillBefore spec.width
  (left ++ UInt8.ofNat ap.next.1 :: (fillBefore width).1, ap.next.2)

/-- The `switch` over the conversion character, but for its `default`. -/
def convert (env : FormatEnv) (spec : FormatSpec) (ap : VaList) (c : Byte) :
    Option (Option (List Byte × VaList)) :=
  if c = '%'.toUInt8 then some (some (['%'.toUInt8], ap))
  else if c = 'c'.toUInt8 then some (some (convertChar spec ap))
  else if c = 'd'.toUInt8 ∨ c = 'i'.toUInt8 then
    some (convertInt spec 10 { spec.flag with sign := true } ap)
  else if c = 'u'.toUInt8 then some (convertInt spec 10 spec.flag ap)
  else if c = 'o'.toUInt8 then some (convertInt spec 8 spec.flag ap)
  else if c = 'p'.toUInt8 then some (convertPointer spec ap)
  else if c = 's'.toUInt8 then some (some ((env.strings ap.next.1).bytes, ap.next.2))
  else if c = 'x'.toUInt8 then some (convertHex spec { spec.flag with small := true } ap)
  else if c = 'X'.toUInt8 then some (convertHex spec spec.flag ap)
  else if c = 'f'.toUInt8 then
    some (some (env.floatToString ap.nextDouble.1 spec.width spec.precision spec.flag,
      ap.nextDouble.2))
  else none

/-- From the `%` of a conversion to its character. -/
def getSpec (ap : VaList) (fmt : List Byte) : Option (FormatSpec × VaList × List Byte) := do
  let (flag, fmt) ← getFlagLoop {} (fmt.drop 1)
  let (width, flag, ap, fmt) ← getWidth flag ap fmt
  let (precision, ap, fmt) ← getPrecision ap fmt
  let (qualifier, fmt) ← getQualifier 0 fmt
  return (⟨flag, width, precision, qualifier⟩, ap, fmt)

/-- A pass of the loop of `vsprintf` that finds a `%`: what it stores, the arguments left, and the
cursor behind the `fmt++` of the loop. The `default` prints the `%` and the character; at the end
of the format it steps back, so that the `fmt++` comes to the NUL again. -/
def formatConversion (env : FormatEnv) (ap : VaList) (fmt : List Byte) :
    Option (List Byte × VaList × List Byte) := do
  let (spec, ap, fmt) ← getSpec ap fmt
  match fmt with
  | [] => none
  | c :: rest =>
      match convert env spec ap c with
      | some result => result.map fun (stored, ap) => (stored, ap, rest)
      | none =>
          if c ≠ 0 then return (['%'.toUInt8, c], ap, rest)
          else return (['%'.toUInt8], ap, c :: rest)

/-- The loop of `vsprintf` for at most `fuel` passes. -/
def formatLoop (env : FormatEnv) : Nat → VaList → List Byte → Option (List Byte)
  | 0, _, _ => none
  | _ + 1, _, [] => none
  | fuel + 1, ap, c :: fmt =>
      if c = 0 then some []
      else if c ≠ '%'.toUInt8 then (formatLoop env fuel ap fmt).map (c :: ·)
      else do
        let (stored, ap, fmt) ← formatConversion env ap (c :: fmt)
        return stored ++ (← formatLoop env fuel ap fmt)

/-- `vsprintf`: what it stores in `buf`, without the zero behind it, and what it returns. -/
def vsprintf (env : FormatEnv) (fmt : List Byte) (ap : VaList) : Option (List Byte × Nat) := do
  let stored ← formatLoop env (fmt.length + 1) ap fmt
  return (stored, ← strlen (cstr stored))

end ClayFigure
