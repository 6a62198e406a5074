/-
# The text of a string on the screen

`utf8_decode` of `graphic/print.c` and the loop of `pr_ttf_str` that takes the characters of a
string off one by one. The decoder tells three kinds of first bytes apart and reads the bytes
behind them unchecked; any other byte it leaves where it is. Which strings the loop gets through
is said exactly, and every text of code points below 0x10000 is among them.
-/

import ClayFigure.Kernel.Global
import ClayFigure.Math.Loop

namespace ClayFigure

open ClayFigure.Math

namespace Utf8

/-! ## The code -/

/-- `utf8_decode`: the code point and what is left of the string. `none` is an access behind the
bytes that can be read. -/
def utf8Decode : List Byte → Option (Nat × List Byte)
  | [] => none
  | b :: str =>
      if b >>> 7 = 0 then some (b.toNat, str)
      else if (b >>> 5) &&& 0x0f = 0x6 then do
        let code := (b &&& 0x1f).toNat <<< 6
        let code := code ||| ((← str.head?) &&& 0x3f).toNat
        return (code, str.tail)
      else if (b >>> 4) &&& 0xf = 0xe then do
        let code := (b &&& 0x0f).toNat <<< 12
        let code := code ||| ((← str.head?) &&& 0x3f).toNat <<< 6
        let str := str.tail
        let code := code ||| ((← str.head?) &&& 0x3f).toNat <<< 0
        return (code, str.tail)
      else some (0, b :: str)

/-- Where the loop of `pr_ttf_str` is: the rest of the string, and the code points that have been
drawn, each with the one behind it that the kerning looks up. -/
structure Text where
  rest : List Byte
  codes : List (Nat × Nat)
  deriving DecidableEq, Repr

/-- One pass of the loop of `pr_ttf_str`; it ends at a zero byte. -/
def prTtfStrStep (text : Text) : Option (Text ⊕ Text) := do
  if (← text.rest.head?) = 0 then return .inr text
  else
    let (code, str) ← utf8Decode text.rest
    let next := str
    let (nextCode, _) ← utf8Decode next
    return .inl ⟨str, text.codes ++ [(code, nextCode)]⟩

/-- The strings that a pass hands to `utf8_decode`: the rest of the text, and what the first call
left of it. -/
def decodeCalls (text : Text) : List (List Byte) :=
  match text.rest.head? with
  | none => []
  | some b =>
      if b = 0 then []
      else
        match utf8Decode text.rest with
        | none => [text.rest]
        | some (_, str) => [text.rest, str]

/-! ## First bytes -/

theorem shiftRight_seven_eq_zero_iff (b : Byte) : b >>> 7 = 0 ↔ b.toNat < 0x80 := by
  rw [← UInt8.toNat_inj]
  simp [Nat.shiftRight_eq_div_pow]

theorem shiftRight_five_eq_iff (b : Byte) :
    (b >>> 5) &&& 0x0f = 0x6 ↔ 0xc0 ≤ b.toNat ∧ b.toNat < 0xe0 := by
  have hb := b.toNat_lt
  have hmask := Nat.and_two_pow_sub_one_eq_mod (b.toNat / 2 ^ 5) 4
  rw [← UInt8.toNat_inj]
  simp [Nat.shiftRight_eq_div_pow] at hmask ⊢
  omega

theorem shiftRight_four_eq_iff (b : Byte) :
    (b >>> 4) &&& 0xf = 0xe ↔ 0xe0 ≤ b.toNat ∧ b.toNat < 0xf0 := by
  have hb := b.toNat_lt
  have hmask := Nat.and_two_pow_sub_one_eq_mod (b.toNat / 2 ^ 4) 4
  rw [← UInt8.toNat_inj]
  simp [Nat.shiftRight_eq_div_pow] at hmask ⊢
  omega

/-- What the decoder does with a byte below 0x80. -/
theorem utf8Decode_one {b : Byte} (hb : b.toNat < 0x80) (str : List Byte) :
    utf8Decode (b :: str) = some (b.toNat, str) := by
  rw [utf8Decode, if_pos ((shiftRight_seven_eq_zero_iff b).mpr hb)]

theorem utf8Decode_two {b : Byte} (hb : 0xc0 ≤ b.toNat ∧ b.toNat < 0xe0) (str : List Byte) :
    utf8Decode (b :: str) = str.head?.map fun c =>
      ((b &&& 0x1f).toNat <<< 6 ||| (c &&& 0x3f).toNat, str.tail) := by
  rw [utf8Decode, if_neg (mt (shiftRight_seven_eq_zero_iff b).mp (by omega)),
    if_pos ((shiftRight_five_eq_iff b).mpr hb)]
  cases str <;> rfl

theorem utf8Decode_three {b : Byte} (hb : 0xe0 ≤ b.toNat ∧ b.toNat < 0xf0) (str : List Byte) :
    utf8Decode (b :: str) = str.head?.bind fun c => str.tail.head?.map fun d =>
      ((b &&& 0x0f).toNat <<< 12 ||| (c &&& 0x3f).toNat <<< 6 ||| (d &&& 0x3f).toNat,
        str.tail.tail) := by
  rw [utf8Decode, if_neg (mt (shiftRight_seven_eq_zero_iff b).mp (by omega)),
    if_neg (mt (shiftRight_five_eq_iff b).mp (by omega)),
    if_pos ((shiftRight_four_eq_iff b).mpr hb)]
  cases str with
  | nil => rfl
  | cons c str => cases str <;> rfl

/-- The decoder does not get past any other byte. -/
theorem utf8Decode_other {b : Byte} (hb : 0x80 ≤ b.toNat ∧ b.toNat < 0xc0 ∨ 0xf0 ≤ b.toNat)
    (str : List Byte) : utf8Decode (b :: str) = some (0, b :: str) := by
  rw [utf8Decode, if_neg (mt (shiftRight_seven_eq_zero_iff b).mp (by omega)),
    if_neg (mt (shiftRight_five_eq_iff b).mp (by omega)),
    if_neg (mt (shiftRight_four_eq_iff b).mp (by omega))]

theorem firstByte_cases (b : Byte) :
    b.toNat < 0x80 ∨ (0xc0 ≤ b.toNat ∧ b.toNat < 0xe0) ∨ (0xe0 ≤ b.toNat ∧ b.toNat < 0xf0) ∨
      (0x80 ≤ b.toNat ∧ b.toNat < 0xc0 ∨ 0xf0 ≤ b.toNat) := by
  omega

/-! ## Whole units -/

/-- A string of first bytes each followed by as many bytes as the decoder takes with it, whatever
these are. -/
inductive WholeUnits : List Byte → Prop
  | nil : WholeUnits []
  | one {b : Byte} {s : List Byte} (hb : b.toNat < 0x80) (hs : WholeUnits s) : WholeUnits (b :: s)
  | two {b c : Byte} {s : List Byte} (hb : 0xc0 ≤ b.toNat ∧ b.toNat < 0xe0) (hs : WholeUnits s) :
      WholeUnits (b :: c :: s)
  | three {b c d : Byte} {s : List Byte} (hb : 0xe0 ≤ b.toNat ∧ b.toNat < 0xf0)
      (hs : WholeUnits s) : WholeUnits (b :: c :: d :: s)

theorem wholeUnits_one_iff {b : Byte} (hb : b.toNat < 0x80) {s : List Byte} :
    WholeUnits (b :: s) ↔ WholeUnits s := by
  refine ⟨fun h => ?_, .one hb⟩
  cases h with
  | one _ hs => exact hs
  | two hb' _ => omega
  | three hb' _ => omega

theorem wholeUnits_two_iff {b : Byte} (hb : 0xc0 ≤ b.toNat ∧ b.toNat < 0xe0) {s : List Byte} :
    WholeUnits (b :: s) ↔ ∃ c t, s = c :: t ∧ WholeUnits t := by
  constructor
  · intro h
    cases h with
    | one hb' _ => omega
    | two _ hs => exact ⟨_, _, rfl, hs⟩
    | three hb' _ => omega
  · rintro ⟨c, t, rfl, ht⟩
    exact .two hb ht

theorem wholeUnits_three_iff {b : Byte} (hb : 0xe0 ≤ b.toNat ∧ b.toNat < 0xf0) {s : List Byte} :
    WholeUnits (b :: s) ↔ ∃ c d t, s = c :: d :: t ∧ WholeUnits t := by
  constructor
  · intro h
    cases h with
    | one hb' _ => omega
    | two hb' _ => omega
    | three _ hs => exact ⟨_, _, _, rfl, hs⟩
  · rintro ⟨c, d, t, rfl, ht⟩
    exact .three hb ht

theorem not_wholeUnits_other {b : Byte}
    (hb : 0x80 ≤ b.toNat ∧ b.toNat < 0xc0 ∨ 0xf0 ≤ b.toNat) {s : List Byte} :
    ¬ WholeUnits (b :: s) := by
  intro h
  cases h <;> omega

/-- On whole units with the zero behind them a call takes one unit off, or the zero. -/
theorem WholeUnits.decode {s : List Byte} (h : WholeUnits s) :
    ∃ code rest, utf8Decode (s ++ [0]) = some (code, rest) ∧ rest.length < (s ++ [0]).length ∧
      (s ≠ [] → ∃ t, rest = t ++ [0] ∧ WholeUnits t ∧ t ⊆ s) := by
  cases h with
  | nil => exact ⟨0, [], rfl, by simp, fun hne => absurd rfl hne⟩
  | @one b s hb hs =>
      exact ⟨_, _, utf8Decode_one hb _, by simp, fun _ => ⟨s, rfl, hs, by simp⟩⟩
  | @two b c s hb hs =>
      exact ⟨_, _, utf8Decode_two hb _, by simp, fun _ => ⟨s, rfl, hs, by intro x hx; simp [hx]⟩⟩
  | @three b c d s hb hs =>
      exact ⟨_, _, utf8Decode_three hb _, by simp,
        fun _ => ⟨s, rfl, hs, by intro x hx; simp [hx]⟩⟩

/-! ## The loop -/

theorem prTtfStrStep_of_ne {b : Byte} (hb : b ≠ 0) (s : List Byte) (codes : List (Nat × Nat)) :
    prTtfStrStep ⟨b :: s, codes⟩ = (utf8Decode (b :: s)).bind fun first =>
      (utf8Decode first.2).map fun next => .inl ⟨first.2, codes ++ [(first.1, next.1)]⟩ := by
  simp only [prTtfStrStep, List.head?_cons, Option.bind_eq_bind, Option.bind_some, if_neg hb]
  cases utf8Decode (b :: s) with
  | none => rfl
  | some first =>
      dsimp only [Option.bind_some]
      cases utf8Decode first.2 <;> rfl

/-- The loop comes to the end of the string. -/
def Completes (str : List Byte) (codes : List (Nat × Nat)) : Prop :=
  ∃ codes', Finishes prTtfStrStep ⟨str, codes⟩ ⟨[0], codes'⟩

/-- A pass that takes one unit off leaves the loop with what is behind it. -/
theorem completes_unit_iff {b : Byte} (hb : b ≠ 0) {str t : List Byte} {code : Nat}
    (hdecode : utf8Decode (b :: str) = some (code, t ++ [0])) (codes : List (Nat × Nat))
    (ih : ∀ codes, Completes (t ++ [0]) codes ↔ WholeUnits t) :
    Completes (b :: str) codes ↔ WholeUnits t := by
  have hstep := prTtfStrStep_of_ne hb str codes
  rw [hdecode, Option.bind_some] at hstep
  cases hnext : utf8Decode (t ++ [0]) with
  | none =>
      rw [hnext, Option.map_none] at hstep
      refine iff_of_false (fun ⟨_, hends⟩ => not_ends_of_none hstep hends) fun ht => ?_
      obtain ⟨code', rest, heq, -⟩ := ht.decode
      cases hnext.symm.trans heq
  | some next =>
      rw [hnext, Option.map_some] at hstep
      rw [← ih]
      exact exists_congr fun codes' => ends_inl hstep

/-- A unit that is cut off by the zero takes the loop behind the end of the string. -/
theorem not_completes_of_cut {b : Byte} (hb : b ≠ 0) {str : List Byte} (codes : List (Nat × Nat))
    (hdecode : ∀ code rest, utf8Decode (b :: str) = some (code, rest) → rest = []) :
    ¬ Completes (b :: str) codes := by
  rintro ⟨codes', hends⟩
  refine not_ends_of_none ?_ hends
  rw [prTtfStrStep_of_ne hb]
  cases hfirst : utf8Decode (b :: str) with
  | none => rfl
  | some first =>
      obtain ⟨code, rest⟩ := first
      cases hdecode code rest hfirst
      rfl

theorem not_completes_two_cut {b : Byte} (hb : 0xc0 ≤ b.toNat ∧ b.toNat < 0xe0)
    (codes : List (Nat × Nat)) : ¬ Completes [b, 0] codes := by
  have hne : b ≠ 0 := by
    rintro rfl
    simp at hb
  refine not_completes_of_cut hne codes fun code rest h => ?_
  rw [utf8Decode_two hb] at h
  exact (Prod.mk.inj (Option.some.inj h)).2.symm

theorem not_completes_three_cut {b : Byte} (hb : 0xe0 ≤ b.toNat ∧ b.toNat < 0xf0)
    (codes : List (Nat × Nat)) :
    ¬ Completes [b, 0] codes ∧ ∀ c, ¬ Completes [b, c, 0] codes := by
  have hne : b ≠ 0 := by
    rintro rfl
    simp at hb
  refine ⟨not_completes_of_cut hne codes fun code rest h => ?_,
    fun c => not_completes_of_cut hne codes fun code rest h => ?_⟩
  · rw [utf8Decode_three hb] at h
    cases h
  · rw [utf8Decode_three hb] at h
    exact (Prod.mk.inj (Option.some.inj h)).2.symm

/-- A byte that starts no unit keeps the loop where it is. -/
theorem not_completes_other {b : Byte} (hb : 0x80 ≤ b.toNat ∧ b.toNat < 0xc0 ∨ 0xf0 ≤ b.toNat)
    (str : List Byte) (codes : List (Nat × Nat)) : ¬ Completes (b :: str) codes := by
  have hne : b ≠ 0 := by
    rintro rfl
    simp at hb
  rintro ⟨codes', hends⟩
  refine not_ends_of_stays (P := fun text => text.rest = b :: str) ?_ rfl hends
  rintro ⟨rest, codes⟩ hrest
  subst hrest
  refine .inr ⟨⟨b :: str, codes ++ [(0, 0)]⟩, ?_, rfl⟩
  rw [prTtfStrStep_of_ne hne, utf8Decode_other hb]
  simp [utf8Decode_other hb]

/-- The loop comes to the end of a string just if it is made of whole units. -/
theorem completes_iff {s : List Byte} (hs : 0 ∉ s) (codes : List (Nat × Nat)) :
    Completes (s ++ [0]) codes ↔ WholeUnits s := by
  induction hn : s.length using Nat.strongRecOn generalizing s codes with
  | ind n ih =>
      cases s with
      | nil => exact iff_of_true ⟨codes, .done rfl⟩ .nil
      | cons b s =>
          simp only [List.mem_cons, not_or] at hs
          obtain ⟨hb, hs⟩ := hs
          have hb := Ne.symm hb
          have ih {t : List Byte} (hlt : t.length < n) (ht : t ⊆ s) (codes : List (Nat × Nat)) :
              Completes (t ++ [0]) codes ↔ WholeUnits t :=
            ih _ hlt (fun hzero => hs (ht hzero)) codes rfl
          rw [List.length_cons] at hn
          rcases firstByte_cases b with hone | htwo | hthree | hother
          · rw [wholeUnits_one_iff hone]
            exact completes_unit_iff hb (utf8Decode_one hone _) codes (ih (by omega) (by simp))
          · rw [wholeUnits_two_iff htwo]
            cases s with
            | nil => exact iff_of_false (not_completes_two_cut htwo codes) (by simp)
            | cons c t =>
                have hunit := completes_unit_iff hb (utf8Decode_two htwo (c :: t ++ [0])) codes
                  (ih (t := t) (by simp at hn; omega) (by simp))
                refine hunit.trans ⟨fun ht => ⟨c, t, rfl, ht⟩, ?_⟩
                rintro ⟨_, _, ⟨⟩, ht⟩
                exact ht
          · rw [wholeUnits_three_iff hthree]
            cases s with
            | nil => exact iff_of_false (not_completes_three_cut hthree codes).1 (by simp)
            | cons c s =>
                cases s with
                | nil =>
                    exact iff_of_false ((not_completes_three_cut hthree codes).2 c) (by simp)
                | cons d t =>
                    have hunit := completes_unit_iff hb (utf8Decode_three hthree (c :: d :: t ++ [0]))
                      codes (ih (t := t) (by simp at hn; omega) (by intro x hx; simp [hx]))
                    refine hunit.trans ⟨fun ht => ⟨c, d, t, rfl, ht⟩, ?_⟩
                    rintro ⟨_, _, _, ⟨⟩, ht⟩
                    exact ht
          · exact iff_of_false (not_completes_other hother _ codes) (not_wholeUnits_other hother)

/-- A pass over whole units leaves whole units. -/
theorem wholeUnits_of_step {s : List Byte} (h : WholeUnits s) (hs : 0 ∉ s)
    {codes : List (Nat × Nat)} {text : Text}
    (hstep : prTtfStrStep ⟨s ++ [0], codes⟩ = some (.inl text)) :
    ∃ t, text.rest = t ++ [0] ∧ WholeUnits t ∧ 0 ∉ t := by
  cases s with
  | nil => cases hstep
  | cons b s =>
      have hb : b ≠ 0 := fun hzero => hs (by simp [hzero])
      obtain ⟨code, rest, hdecode, -, hrest⟩ := h.decode
      obtain ⟨t, rfl, ht, hsub⟩ := hrest (by simp)
      rw [List.cons_append, prTtfStrStep_of_ne hb, ← List.cons_append, hdecode,
        Option.bind_some, Option.map_eq_some_iff] at hstep
      obtain ⟨next, -, heq⟩ := hstep
      obtain rfl := Sum.inl.inj heq
      exact ⟨t, rfl, ht, fun hzero => hs (hsub hzero)⟩

theorem wholeUnits_of_goesTo {s : List Byte} (h : WholeUnits s) (hs : 0 ∉ s) {text : Text}
    (hgoes : GoesTo prTtfStrStep ⟨s ++ [0], []⟩ text) :
    ∃ t, text.rest = t ++ [0] ∧ WholeUnits t ∧ 0 ∉ t := by
  induction hgoes with
  | refl => exact ⟨s, rfl, h, hs⟩
  | @tail text text' _ hstep ih =>
      obtain ⟨t, hrest, ht, hzero⟩ := ih
      obtain ⟨rest, codes⟩ := text
      obtain rfl : rest = t ++ [0] := hrest
      exact wholeUnits_of_step ht hzero hstep

/-- The strings handed to the decoder while the loop is at whole units are whole units. -/
theorem wholeUnits_of_decodeCalls {s : List Byte} (h : WholeUnits s) {codes : List (Nat × Nat)}
    {str : List Byte} (hstr : str ∈ decodeCalls ⟨s ++ [0], codes⟩) :
    ∃ t, str = t ++ [0] ∧ WholeUnits t := by
  cases s with
  | nil => simp [decodeCalls] at hstr
  | cons b s =>
      obtain ⟨code, rest, hdecode, -, hrest⟩ := h.decode
      obtain ⟨t, rfl, ht, -⟩ := hrest (by simp)
      by_cases hb : b = 0
      · simp [decodeCalls, hb] at hstr
      · simp only [decodeCalls, List.cons_append, List.head?_cons, if_neg hb] at hstr
        rw [← List.cons_append, hdecode] at hstr
        simp only [List.mem_cons, List.not_mem_nil, or_false] at hstr
        rcases hstr with rfl | rfl
        · exact ⟨b :: s, rfl, h⟩
        · exact ⟨t, rfl, ht⟩

/-- What the callers of `pr_ttf_str` rely on for the string `s`: the loop ends at the zero behind
it, and no call of the decoder on a rest that is not empty leaves it where it was. -/
structure Consumes (s : List Byte) : Prop where
  completes : Completes (s ++ [0]) []
  advances : ∀ text, GoesTo prTtfStrStep ⟨s ++ [0], []⟩ text → ∀ str ∈ decodeCalls text,
    str.head? ≠ some 0 → ∃ code rest, utf8Decode str = some (code, rest) ∧
      rest.length < str.length

theorem consumes_iff {s : List Byte} (hs : 0 ∉ s) : Consumes s ↔ WholeUnits s := by
  refine ⟨fun h => (completes_iff hs []).mp h.completes, fun h => ?_⟩
  refine ⟨(completes_iff hs []).mpr h, fun text hgoes str hstr _ => ?_⟩
  obtain ⟨t, hrest, ht, -⟩ := wholeUnits_of_goesTo h hs hgoes
  obtain ⟨rest, codes⟩ := text
  obtain rfl : rest = t ++ [0] := hrest
  obtain ⟨u, rfl, hu⟩ := wholeUnits_of_decodeCalls ht hstr
  obtain ⟨code, rest, hdecode, hlt, -⟩ := hu.decode
  exact ⟨code, rest, hdecode, hlt⟩

/-! ## Encoded text -/

/-- The UTF-8 encoding of a code point below 0x10000. -/
def encodePoint (cp : Nat) : List Byte :=
  if cp < 0x80 then [UInt8.ofNat cp]
  else if cp < 0x800 then [UInt8.ofNat (0xc0 + cp / 64), UInt8.ofNat (0x80 + cp % 64)]
  else
    [UInt8.ofNat (0xe0 + cp / 4096), UInt8.ofNat (0x80 + cp / 64 % 64),
      UInt8.ofNat (0x80 + cp % 64)]

/-- The UTF-8 encoding of a text. -/
def encode (cps : List Nat) : List Byte := cps.flatMap encodePoint

/-- It is the encoding that the language itself has, where a code point is a character. -/
theorem encodePoint_toNat (c : Char) (hc : c.toNat < 0x10000) :
    encodePoint c.toNat = String.utf8EncodeChar c := by
  have hval : c.val.toNat = c.toNat := rfl
  simp only [encodePoint, String.utf8EncodeChar, hval]
  by_cases hone : c.toNat < 0x80
  · rw [if_pos hone, if_pos (show c.toNat ≤ 0x7f by omega)]
  · rw [if_neg hone, if_neg (show ¬ c.toNat ≤ 0x7f by omega)]
    by_cases htwo : c.toNat < 0x800
    · rw [if_pos htwo, if_pos (show c.toNat ≤ 0x7ff by omega),
        Nat.mod_eq_of_lt (show c.toNat / 64 < 0x20 by omega), Nat.add_comm 0xc0,
        Nat.add_comm 0x80]
    · rw [if_neg htwo, if_neg (show ¬ c.toNat ≤ 0x7ff by omega),
        if_pos (show c.toNat ≤ 0xffff by omega),
        Nat.mod_eq_of_lt (show c.toNat / 4096 < 0x10 by omega), Nat.add_comm 0xe0,
        Nat.add_comm 0x80, Nat.add_comm 0x80]

/-- Bits that do not overlap are put together by an addition. -/
theorem shiftLeft_or (a : Nat) {b k : Nat} (hb : b < 2 ^ k) : a <<< k ||| b = a * 2 ^ k + b := by
  rw [← Nat.shiftLeft_add_eq_or_of_lt hb, Nat.shiftLeft_eq]

theorem and_mask_toNat (b mask : Byte) (k : Nat) (hmask : mask.toNat = 2 ^ k - 1) :
    (b &&& mask).toNat = b.toNat % 2 ^ k := by
  rw [UInt8.toNat_and, hmask, Nat.and_two_pow_sub_one_eq_mod]

theorem utf8Decode_encodePoint {cp : Nat} (hcp : cp < 0x10000) (rest : List Byte) :
    utf8Decode (encodePoint cp ++ rest) = some (cp, rest) := by
  rw [encodePoint]
  by_cases hone : cp < 0x80
  · have hbyte : (UInt8.ofNat cp).toNat = cp := by
      rw [UInt8.toNat_ofNat', Nat.mod_eq_of_lt (by omega)]
    rw [if_pos hone, List.singleton_append, utf8Decode_one (by omega), hbyte]
  · by_cases htwo : cp < 0x800
    · have hlead : (UInt8.ofNat (0xc0 + cp / 64)).toNat = 0xc0 + cp / 64 := by
        rw [UInt8.toNat_ofNat', Nat.mod_eq_of_lt (by omega)]
      have hlow : (UInt8.ofNat (0x80 + cp % 64)).toNat = 0x80 + cp % 64 := by
        rw [UInt8.toNat_ofNat', Nat.mod_eq_of_lt (by omega)]
      rw [if_neg hone, if_pos htwo, List.cons_append, utf8Decode_two (by omega)]
      simp only [List.singleton_append, List.head?_cons, Option.map_some, List.tail_cons,
        and_mask_toNat _ 0x1f 5 rfl, and_mask_toNat _ 0x3f 6 rfl, hlead, hlow]
      rw [shiftLeft_or _ (by omega)]
      congr 2
      omega
    · have hlead : (UInt8.ofNat (0xe0 + cp / 4096)).toNat = 0xe0 + cp / 4096 := by
        rw [UInt8.toNat_ofNat', Nat.mod_eq_of_lt (by omega)]
      have hmid : (UInt8.ofNat (0x80 + cp / 64 % 64)).toNat = 0x80 + cp / 64 % 64 := by
        rw [UInt8.toNat_ofNat', Nat.mod_eq_of_lt (by omega)]
      have hlow : (UInt8.ofNat (0x80 + cp % 64)).toNat = 0x80 + cp % 64 := by
        rw [UInt8.toNat_ofNat', Nat.mod_eq_of_lt (by omega)]
      rw [if_neg hone, if_neg htwo, List.cons_append, utf8Decode_three (by omega)]
      simp only [List.cons_append, List.nil_append, List.head?_cons, Option.bind_some,
        Option.map_some, List.tail_cons, and_mask_toNat _ 0x0f 4 rfl, and_mask_toNat _ 0x3f 6 rfl,
        hlead, hmid, hlow]
      rw [Nat.shiftLeft_eq ((0x80 + cp / 64 % 64) % 2 ^ 6), shiftLeft_or _ (by omega),
        show (0xe0 + cp / 4096) % 2 ^ 4 * 2 ^ 12 + (0x80 + cp / 64 % 64) % 2 ^ 6 * 2 ^ 6 =
          (cp / 64) <<< 6 by rw [Nat.shiftLeft_eq]; omega, shiftLeft_or _ (by omega)]
      congr 2
      omega

/-- The encoding of a code point other than zero has no zero byte in it. -/
theorem zero_notMem_encodePoint {cp : Nat} (hcp : 1 ≤ cp ∧ cp < 0x10000) :
    (0 : Byte) ∉ encodePoint cp := by
  have hne {n : Nat} (hn : 0 < n ∧ n < 0x100) : (0 : Byte) ≠ UInt8.ofNat n := by
    intro heq
    have hval := congrArg UInt8.toNat heq
    rw [UInt8.toNat_ofNat', Nat.mod_eq_of_lt hn.2] at hval
    exact absurd hval (by simp; omega)
  rw [encodePoint]
  split
  · simpa using hne (n := cp) (by omega)
  · split
    · simp only [List.mem_cons, List.not_mem_nil, or_false, not_or]
      exact ⟨hne (by omega), hne (by omega)⟩
    · simp only [List.mem_cons, List.not_mem_nil, or_false, not_or]
      exact ⟨hne (by omega), hne (by omega), hne (by omega)⟩

theorem zero_notMem_encode {cps : List Nat} (hcps : ∀ cp ∈ cps, 1 ≤ cp ∧ cp < 0x10000) :
    (0 : Byte) ∉ encode cps := by
  rw [encode, List.mem_flatMap]
  rintro ⟨cp, hcp, hzero⟩
  exact zero_notMem_encodePoint (hcps cp hcp) hzero

/-- Each code point with the one behind it. -/
def kernPairs : List Nat → List (Nat × Nat)
  | [] => []
  | cp :: cps => (cp, cps.headD 0) :: kernPairs cps

theorem map_fst_kernPairs (cps : List Nat) : (kernPairs cps).map Prod.fst = cps := by
  induction cps with
  | nil => rfl
  | cons cp cps ih => rw [kernPairs, List.map_cons, ih]

theorem encodePoint_eq_cons {cp : Nat} (hcp : 1 ≤ cp ∧ cp < 0x10000) :
    ∃ b bytes, encodePoint cp = b :: bytes ∧ b ≠ 0 := by
  have hne : encodePoint cp ≠ [] := by
    rw [encodePoint]
    split
    · simp
    · split <;> simp
  obtain ⟨b, bytes, hbytes⟩ := List.exists_cons_of_ne_nil hne
  refine ⟨b, bytes, hbytes, ?_⟩
  rintro rfl
  exact zero_notMem_encodePoint hcp (by simp [hbytes])

theorem encode_cons (cp : Nat) (cps : List Nat) :
    encode (cp :: cps) = encodePoint cp ++ encode cps := rfl

/-- What a call sees of an encoded text is its first code point, or the zero behind it. -/
theorem utf8Decode_encode {cps : List Nat} (hcps : ∀ cp ∈ cps, 1 ≤ cp ∧ cp < 0x10000) :
    ∃ rest, utf8Decode (encode cps ++ [0]) = some (cps.headD 0, rest) := by
  cases cps with
  | nil => exact ⟨[], rfl⟩
  | cons cp cps =>
      rw [encode_cons, List.append_assoc, utf8Decode_encodePoint (hcps cp (by simp)).2]
      exact ⟨_, rfl⟩

/-- The loop takes an encoded text apart into its code points. -/
theorem finishes_encode {cps : List Nat} (hcps : ∀ cp ∈ cps, 1 ≤ cp ∧ cp < 0x10000) :
    ∀ codes, Finishes prTtfStrStep ⟨encode cps ++ [0], codes⟩ ⟨[0], codes ++ kernPairs cps⟩ := by
  induction cps with
  | nil =>
      intro codes
      rw [kernPairs, List.append_nil]
      exact .done rfl
  | cons cp cps ih =>
      intro codes
      have hcp := hcps cp (by simp)
      have hrest (cp' : Nat) (hmem : cp' ∈ cps) := hcps cp' (by simp [hmem])
      obtain ⟨rest, hnext⟩ := utf8Decode_encode hrest
      have hdecode := utf8Decode_encodePoint hcp.2 (encode cps ++ [0])
      rw [encode_cons, List.append_assoc]
      obtain ⟨b, bytes, hbytes, hb⟩ := encodePoint_eq_cons hcp
      rw [hbytes, List.cons_append] at hdecode ⊢
      have hstep := prTtfStrStep_of_ne hb (bytes ++ (encode cps ++ [0])) codes
      rw [hdecode, Option.bind_some, hnext, Option.map_some] at hstep
      have hends := ih hrest (codes ++ [(cp, cps.headD 0)])
      rw [List.append_assoc] at hends
      exact .next hstep hends

/-- The loop of `pr_ttf_str` gets through a string just if it is made of whole units, and every
text of code points 1 to 0xFFFF is one of these and comes out as it went in, each code point with
the one behind it. -/
theorem consumes_iff_and_finishes_encode {s : List Byte} (hs : 0 ∉ s) {cps : List Nat}
    (hcps : ∀ cp ∈ cps, 1 ≤ cp ∧ cp ≤ 0xffff) :
    (Consumes s ↔ WholeUnits s) ∧ Consumes (encode cps) ∧
      ∃ codes, Finishes prTtfStrStep ⟨encode cps ++ [0], []⟩ ⟨[0], codes⟩ ∧
        codes.map Prod.fst = cps := by
  have hcps : ∀ cp ∈ cps, 1 ≤ cp ∧ cp < 0x10000 := fun cp hcp =>
    ⟨(hcps cp hcp).1, Nat.lt_succ_of_le (hcps cp hcp).2⟩
  have hends := finishes_encode hcps []
  have hzero := zero_notMem_encode hcps
  refine ⟨consumes_iff hs, ?_, kernPairs cps, hends, map_fst_kernPairs cps⟩
  exact (consumes_iff hzero).mpr ((completes_iff hzero []).mp ⟨_, hends⟩)

/-- The letter A and an e with an accent, and the text A, é and the euro sign. -/
theorem consumes_iff_and_finishes_encode_text :
    Consumes [0x41, 0xc3, 0xa9] ∧ Consumes (encode [0x41, 0xe9, 0x20ac]) := by
  have htext := @consumes_iff_and_finishes_encode [0x41, 0xc3, 0xa9] (by simp)
    [0x41, 0xe9, 0x20ac] (by simp)
  have hunits : WholeUnits [0x41, 0xc3, 0xa9] := .one (by simp) (.two (by simp) .nil)
  exact ⟨htext.1.mpr hunits, htext.2.1⟩

/-- The loop does not come to the end of a text with a character beyond 0xFFFF, of a stray byte,
or of a character that is cut off: it stays at the first two for ever and reads behind the zero of
the third. -/
theorem not_consumes :
    ¬ Consumes [0xf0, 0x9f, 0x98, 0x80] ∧ ¬ Consumes [0x80] ∧ ¬ Consumes [0xc3] := by
  refine ⟨fun h => ?_, fun h => ?_, fun h => ?_⟩
  · exact not_completes_other (by simp) _ _ h.completes
  · exact not_completes_other (by simp) _ _ h.completes
  · exact not_completes_two_cut (by simp) _ h.completes

end Utf8

end ClayFigure
