/-
# The configuration file

The scanner of `kernel/config.c` over the bytes of a file of the ramfs. A cursor may come to
stand behind the end of the file, where it reads whatever the memory holds; the loops test for
the end only after they have looked at a byte, and the advances after `]` and after a line do
not test for it at all.
-/

import Mathlib.Data.List.DropRight
import ClayFigure.Lib.String

namespace ClayFigure

/-! ## The code -/

/-- `IS_SPACE`. -/
def isSpace (b : Byte) : Bool := b = 32 || b = 10 || b = 13 || b = 9

/-- `IS_KEY_NAME`. -/
def isKeyName (b : Byte) : Bool := (97 ≤ b && b ≤ 122) || (65 ≤ b && b ≤ 90) || b = 95

/-- `conf_item_t`; the character arrays are lists of their bytes. -/
structure ConfItem where
  name : List Byte
  nameLen : Nat
  val : List Byte
  valLen : Nat

/-- A pointer into the file: the bytes left up to `end`, and how far it is behind `end`. -/
structure Cursor where
  left : List Byte
  behind : Nat

/-- A cursor at the start of a file. -/
def Cursor.ofFile (data : List Byte) : Cursor := ⟨data, 0⟩

namespace Cursor

/-- `**src`; `past` is the memory from `end` on. -/
def deref (past : Nat → Byte) (src : Cursor) : Byte :=
  match src.left with
  | [] => past src.behind
  | b :: _ => b

/-- `(*src)++`. -/
def advance (src : Cursor) : Cursor :=
  match src.left with
  | [] => ⟨[], src.behind + 1⟩
  | _ :: left => ⟨left, src.behind⟩

/-- `skip_space`; the loop takes no byte behind the end. -/
def skipSpace (src : Cursor) : Cursor := { src with left := src.left.dropWhile isSpace }

/-- `skip_line`. -/
def skipLine (src : Cursor) : Cursor := { src with left := src.left.dropWhile (· ≠ 10) }

/-- The bytes a copying loop of `read_item` takes, at most 63, each of which `p` accepts. -/
def taken (src : Cursor) (p : Byte → Bool) : List Byte := (src.left.take 63).takeWhile p

def skip (src : Cursor) (n : Nat) : Cursor := { src with left := src.left.drop n }

end Cursor

/-- A character array after a string has been copied to its start. -/
def fillArray (array s : List Byte) : List Byte := cstr s ++ array.drop (s.length + 1)

/-- `read_item`; `item` is what the local variable holds before. -/
def readItem (past : Nat → Byte) (src : Cursor) (item : ConfItem) :
    Status × Cursor × ConfItem :=
  let src := src.skipSpace
  let name := src.taken isKeyName
  let item := { item with name := fillArray item.name name, nameLen := name.length, valLen := 0 }
  let src := (src.skip name.length).skipSpace
  if src.deref past ≠ 61 then (.kError, src.advance, item)
  else
    let src := src.advance.skipSpace
    if src.deref past ≠ 91 then (.kError, src.advance, item)
    else
      let src := src.advance.skipSpace
      let val := src.taken (· ≠ 93)
      let item := { item with val := fillArray item.val val, valLen := val.length }
      (.kSuccess, (src.skip val.length).advance, item)

/-- The loop of `parse_config` for at most `fuel` passes; `stack` is what the local `item` holds
in each. `none` is a store behind `configures.items`, or that `fuel` is used up. -/
def parseLoop (past : Nat → Byte) (stack : Nat → ConfItem) :
    Nat → Cursor → List ConfItem → Option (List ConfItem)
  | 0, _, _ => none
  | fuel + 1, src, items =>
      if src.left = [] then some items
      else
        let src := src.skipSpace
        if src.left = [] then some items
        else if src.deref past = 35 then
          parseLoop past stack fuel src.skipLine.advance items
        else
          match readItem past src (stack fuel) with
          | (.kSuccess, src, item) =>
              if items.length < 64 then
                parseLoop past stack fuel src.advance (items ++ [item])
              else none
          | (_, src, _) => parseLoop past stack fuel src.skipLine.advance items

/-- `parse_config`: the items of `configures` afterwards. Every pass takes a byte. -/
def parseConfig (past : Nat → Byte) (stack : Nat → ConfItem) (data : List Byte) :
    Option (List ConfItem) :=
  parseLoop past stack (data.length + 1) (.ofFile data) []

/-- `read_config`: the buffer and `*value_len` afterwards. -/
def readConfig (name value : List Byte) (valueLen : Nat) :
    List ConfItem → Option (List Byte × Nat)
  | [] => some (value, 0)
  | item :: items => do
      if (← strcmp name item.name) = 0 then
        if valueLen < item.valLen then return (value, 0)
        else return (← strcpy value item.val, item.valLen)
      else readConfig name value valueLen items

/-! ## The files -/

/-- A pair the file may have. -/
structure ConfPair where
  name : List Byte
  value : List Byte
  name_ne_nil : name ≠ []
  name_le : name.length ≤ 63
  name_key : ∀ b ∈ name, isKeyName b = true
  value_le : value.length ≤ 63
  value_plain : ∀ b ∈ value, b ≠ 93 ∧ b ≠ 0
  value_start : ∀ b, value.head? = some b → isSpace b = false

/-- A line of the file, without its end. -/
inductive ConfLine
  | pair (p : ConfPair)
  | comment (text : List Byte) (htext : ∀ b ∈ text, b ≠ 10)
  | blank (text : List Byte) (htext : ∀ b ∈ text, isSpace b = true)

namespace ConfLine

/-- `NAME = [VALUE]`, `#...`, or white space. -/
def bytes : ConfLine → List Byte
  | .pair p => p.name ++ [32, 61, 32, 91] ++ p.value ++ [93]
  | .comment text _ => 35 :: text
  | .blank text _ => text

/-- The pairs of a list of lines, in order. -/
def pairs : List ConfLine → List ConfPair
  | [] => []
  | .pair p :: lines => p :: pairs lines
  | .comment _ _ :: lines => pairs lines
  | .blank _ _ :: lines => pairs lines

/-- The file with these lines. A file that ends with the end of a line has an empty last one. -/
def text : List ConfLine → List Byte
  | [] => []
  | [line] => line.bytes
  | line :: lines => line.bytes ++ 10 :: text lines

end ConfLine

/-- The item holds the pair. -/
structure Stores (p : ConfPair) (item : ConfItem) : Prop where
  name : ∃ rest, item.name = cstr p.name ++ rest
  nameLen : item.nameLen = p.name.length
  val : ∃ rest, item.val = cstr p.value ++ rest
  valLen : item.valLen = p.value.length

/-- The value of the first pair of a name. -/
def firstValue (name : List Byte) : List ConfPair → Option (List Byte)
  | [] => none
  | p :: ps => if p.name = name then some p.value else firstValue name ps

/-! ## The loops -/

theorem not_isSpace_of_isKeyName {b : Byte} (h : isKeyName b = true) : isSpace b = false := by
  by_cases hspace : isSpace b = true
  · simp only [isSpace, Bool.or_eq_true, decide_eq_true_eq] at hspace
    rcases hspace with ((rfl | rfl) | rfl) | rfl <;> simp [isKeyName] at h
  · exact Bool.eq_false_iff.mpr hspace

namespace Cursor

variable {p : Byte → Bool} {s rest : List Byte} {b : Byte}

/-- A copying loop takes a run of at most 63 bytes that a refused byte ends. -/
theorem taken_eq (hs : ∀ a ∈ s, p a = true) (hlen : s.length ≤ 63) (hb : p b = false)
    (rest : List Byte) (behind : Nat) : (Cursor.mk (s ++ b :: rest) behind).taken p = s := by
  rw [taken, ← List.take_takeWhile, List.takeWhile_append_of_pos hs,
    List.takeWhile_cons_of_neg (Bool.eq_false_iff.mp hb), List.append_nil,
    List.take_of_length_le hlen]

theorem skip_eq (s rest : List Byte) (behind : Nat) :
    (Cursor.mk (s ++ rest) behind).skip s.length = ⟨rest, behind⟩ := by
  rw [skip, List.drop_left]

theorem skipSpace_cons (hb : isSpace b = false) (rest : List Byte) (behind : Nat) :
    (Cursor.mk (b :: rest) behind).skipSpace = ⟨b :: rest, behind⟩ := by
  rw [skipSpace, List.dropWhile_cons_of_neg (Bool.eq_false_iff.mp hb)]

theorem skipSpace_append (hs : ∀ a ∈ s, isSpace a = true) (rest : List Byte) (behind : Nat) :
    (Cursor.mk (s ++ rest) behind).skipSpace = (Cursor.mk rest behind).skipSpace := by
  rw [skipSpace, List.dropWhile_append_of_pos hs, skipSpace]

theorem skipSpace_skipSpace (src : Cursor) : src.skipSpace.skipSpace = src.skipSpace := by
  simp only [skipSpace, List.dropWhile_idempotent]

end Cursor

/-- The value of a pair starts where white space has been skipped. -/
theorem ConfPair.skipSpace_value (p : ConfPair) (rest : List Byte) (behind : Nat) :
    (Cursor.mk (p.value ++ 93 :: rest) behind).skipSpace = ⟨p.value ++ 93 :: rest, behind⟩ := by
  cases hvalue : p.value with
  | nil => exact Cursor.skipSpace_cons (by decide) rest behind
  | cons b value =>
      apply Cursor.skipSpace_cons
      apply p.value_start
      rw [hvalue]
      rfl

/-- `read_item` on a line that has a pair: the item holds it, and the cursor is behind the
`]`. -/
theorem readItem_pair (past : Nat → Byte) (item : ConfItem) (p : ConfPair) (rest : List Byte)
    (behind : Nat) : ∃ item',
      readItem past ⟨(ConfLine.pair p).bytes ++ rest, behind⟩ item =
        (.kSuccess, ⟨rest, behind⟩, item') ∧ Stores p item' := by
  obtain ⟨b, name, hname⟩ := List.exists_cons_of_ne_nil p.name_ne_nil
  -- The name, up to the blank behind it.
  have hstart : (Cursor.mk ((ConfLine.pair p).bytes ++ rest) behind).skipSpace =
      ⟨p.name ++ 32 :: (61 :: 32 :: 91 :: (p.value ++ 93 :: rest)), behind⟩ := by
    have hkey := p.name_key b (by rw [hname]; exact List.mem_cons_self)
    simp only [ConfLine.bytes, hname, List.cons_append, List.append_assoc, List.nil_append]
    exact Cursor.skipSpace_cons (not_isSpace_of_isKeyName hkey) _ _
  have hkey := Cursor.taken_eq p.name_key p.name_le (show isKeyName 32 = false by decide)
    (61 :: 32 :: 91 :: (p.value ++ 93 :: rest)) behind
  -- The blanks around the `=`.
  have hblank (left : List Byte) : (Cursor.mk (32 :: left) behind).skipSpace =
      (Cursor.mk left behind).skipSpace :=
    Cursor.skipSpace_append (s := [32]) (List.forall_mem_singleton.mpr rfl) left behind
  have hequals := Cursor.skipSpace_cons (show isSpace 61 = false by decide)
    (32 :: 91 :: (p.value ++ 93 :: rest)) behind
  have hbracket := Cursor.skipSpace_cons (show isSpace 91 = false by decide)
    (p.value ++ 93 :: rest) behind
  -- The value, up to the `]`.
  have hvalue : ∀ a ∈ p.value, decide (a ≠ 93) = true := fun a ha =>
    decide_eq_true (p.value_plain a ha).1
  have hval := Cursor.taken_eq hvalue p.value_le (show decide ((93 : Byte) ≠ 93) = false by decide)
    rest behind
  refine ⟨⟨fillArray item.name p.name, p.name.length, fillArray item.val p.value,
    p.value.length⟩, ?_, ⟨⟨_, rfl⟩, rfl, ⟨_, rfl⟩, rfl⟩⟩
  simp only [readItem, hstart, hkey, Cursor.skip_eq, hblank, hequals, Cursor.deref,
    Cursor.advance, hbracket, p.skipSpace_value, hval, ne_eq, not_true_eq_false, if_false]

/-! ## The loop over the lines -/

section

variable {past : Nat → Byte} {stack : Nat → ConfItem} {fuel : Nat} {items : List ConfItem}

theorem parseLoop_end (behind : Nat) :
    parseLoop past stack (fuel + 1) ⟨[], behind⟩ items = some items := rfl

/-- White space in front of a pass makes no difference. -/
theorem parseLoop_skipSpace (src : Cursor) :
    parseLoop past stack (fuel + 1) src.skipSpace items =
      parseLoop past stack (fuel + 1) src items := by
  by_cases hsrc : src.left = []
  · have hskip : src.skipSpace.left = [] := by
      rw [Cursor.skipSpace, hsrc]
      rfl
    simp only [parseLoop, hsrc, hskip, if_true]
  · by_cases hskip : src.skipSpace.left = []
    · simp only [parseLoop, hsrc, hskip, if_true, if_false]
    · simp only [parseLoop, hsrc, hskip, if_false, Cursor.skipSpace_skipSpace]

theorem parseLoop_blank (text : List Byte) (htext : ∀ b ∈ text, isSpace b = true)
    (rest : List Byte) (behind : Nat) :
    parseLoop past stack (fuel + 1) ⟨text ++ rest, behind⟩ items =
      parseLoop past stack (fuel + 1) ⟨rest, behind⟩ items := by
  rw [← parseLoop_skipSpace, Cursor.skipSpace_append htext, parseLoop_skipSpace]

/-- A pass that starts at a byte that is no white space. -/
theorem parseLoop_cons {b : Byte} (hb : isSpace b = false) (left : List Byte) (behind : Nat) :
    parseLoop past stack (fuel + 1) ⟨b :: left, behind⟩ items =
      if b = 35 then
        parseLoop past stack fuel (Cursor.mk (b :: left) behind).skipLine.advance items
      else
        match readItem past ⟨b :: left, behind⟩ (stack fuel) with
        | (.kSuccess, src, item) =>
            if items.length < 64 then parseLoop past stack fuel src.advance (items ++ [item])
            else none
        | (_, src, _) => parseLoop past stack fuel src.skipLine.advance items := by
  simp only [parseLoop, Cursor.skipSpace_cons hb, List.cons_ne_nil, if_false, Cursor.deref]

theorem parseLoop_comment (text rest : List Byte) (behind : Nat) :
    parseLoop past stack (fuel + 1) ⟨35 :: (text ++ rest), behind⟩ items =
      parseLoop past stack fuel (Cursor.mk (35 :: (text ++ rest)) behind).skipLine.advance
        items := by
  rw [parseLoop_cons (by decide), if_pos rfl]

variable (past stack fuel) in
theorem parseLoop_pair (p : ConfPair) (rest : List Byte) (behind : Nat)
    (hitems : items.length < 64) : ∃ item, Stores p item ∧
      parseLoop past stack (fuel + 1) ⟨(ConfLine.pair p).bytes ++ rest, behind⟩ items =
        parseLoop past stack fuel (Cursor.mk rest behind).advance (items ++ [item]) := by
  obtain ⟨item, hread, hstores⟩ := readItem_pair past (stack fuel) p rest behind
  obtain ⟨b, name, hname⟩ := List.exists_cons_of_ne_nil p.name_ne_nil
  have hkey := p.name_key b (by rw [hname]; exact List.mem_cons_self)
  have hcomment : ¬ b = 35 := by
    rintro rfl
    exact absurd hkey (by decide)
  have hbytes : (ConfLine.pair p).bytes ++ rest =
      b :: (name ++ [32, 61, 32, 91] ++ p.value ++ [93] ++ rest) := by
    simp only [ConfLine.bytes, hname, List.cons_append]
  refine ⟨item, hstores, ?_⟩
  rw [hbytes] at hread ⊢
  rw [parseLoop_cons (not_isSpace_of_isKeyName hkey), if_neg hcomment, hread]
  exact if_pos hitems

end

namespace ConfLine

/-- What follows a line. -/
def ending : List ConfLine → List Byte
  | [] => []
  | line :: lines => 10 :: text (line :: lines)

theorem text_cons (line : ConfLine) (lines : List ConfLine) :
    text (line :: lines) = line.bytes ++ ending lines := by
  cases lines with
  | nil => exact (List.append_nil _).symm
  | cons next lines => rfl

/-- The `src++` of the loop takes the end of the line, or goes behind the end of the file. -/
theorem advance_ending (lines : List ConfLine) (behind : Nat) :
    (Cursor.mk (ending lines) behind).advance.left = text lines := by
  cases lines with
  | nil => rfl
  | cons line lines => rfl

/-- `skip_line` stops at the end of a comment. -/
theorem skipLine_comment {text : List Byte} (htext : ∀ b ∈ text, b ≠ 10) (lines : List ConfLine)
    (behind : Nat) : (Cursor.mk (35 :: (text ++ ending lines)) behind).skipLine =
      ⟨ending lines, behind⟩ := by
  have hrun : ∀ b ∈ 35 :: text, decide (b ≠ 10) = true := by
    intro b hb
    rcases List.mem_cons.mp hb with rfl | hb
    · decide
    · exact decide_eq_true (htext b hb)
  have hstop : (ending lines).dropWhile (fun b => decide (b ≠ 10)) = ending lines := by
    cases lines with
    | nil => rfl
    | cons line lines => rfl
  show Cursor.mk (((35 :: text) ++ ending lines).dropWhile _) behind = _
  rw [List.dropWhile_append_of_pos hrun, hstop]

end ConfLine

/-- The end of a blank line is white space too. -/
theorem parseLoop_ending {past : Nat → Byte} {stack : Nat → ConfItem} {fuel : Nat}
    {items : List ConfItem} (lines : List ConfLine) (behind : Nat) :
    parseLoop past stack (fuel + 1) ⟨ConfLine.ending lines, behind⟩ items =
      parseLoop past stack (fuel + 1) ⟨ConfLine.text lines, behind⟩ items := by
  cases lines with
  | nil => rfl
  | cons line lines =>
      exact parseLoop_blank [10] (List.forall_mem_singleton.mpr rfl) _ behind

/-- The loop of `parse_config` stores the pairs of the lines in order. -/
theorem parseLoop_text (past : Nat → Byte) (stack : Nat → ConfItem) :
    ∀ (lines : List ConfLine) (fuel : Nat) (src : Cursor) (items : List ConfItem),
      src.left = ConfLine.text lines → (ConfLine.text lines).length < fuel →
      items.length + (ConfLine.pairs lines).length ≤ 64 →
      ∃ items', List.Forall₂ Stores (ConfLine.pairs lines) items' ∧
        parseLoop past stack fuel src items = some (items ++ items') := by
  intro lines
  induction lines with
  | nil =>
      intro fuel src items hsrc hfuel _
      obtain ⟨fuel, rfl⟩ := Nat.exists_eq_succ_of_ne_zero (Nat.ne_of_gt hfuel)
      refine ⟨[], .nil, ?_⟩
      rw [List.append_nil, parseLoop, if_pos (show src.left = [] from hsrc)]
  | cons line lines ih =>
      intro fuel src items hsrc hfuel hitems
      obtain ⟨left, behind⟩ := src
      obtain ⟨fuel, rfl⟩ := Nat.exists_eq_succ_of_ne_zero (Nat.ne_of_gt (Nat.zero_lt_of_lt hfuel))
      rw [ConfLine.text_cons] at hsrc hfuel
      obtain rfl : left = line.bytes ++ ConfLine.ending lines := hsrc
      rw [List.length_append] at hfuel
      have hending : (ConfLine.text lines).length ≤ (ConfLine.ending lines).length := by
        cases lines with
        | nil => exact le_refl 0
        | cons next lines => exact Nat.le_succ _
      cases line with
      | pair p =>
          have hbytes : 0 < (ConfLine.pair p).bytes.length := by
            simp [ConfLine.bytes]
          have hpairs : ConfLine.pairs (.pair p :: lines) = p :: ConfLine.pairs lines := rfl
          rw [hpairs, List.length_cons] at hitems
          obtain ⟨item, hstores, hpass⟩ := parseLoop_pair past stack fuel p
            (ConfLine.ending lines) behind (by omega : items.length < 64)
          obtain ⟨items', hall, hrest⟩ := ih fuel _ (items ++ [item])
            (ConfLine.advance_ending lines behind) (by omega)
            (by rw [List.length_append, List.length_singleton]; omega)
          refine ⟨item :: items', .cons hstores hall, ?_⟩
          rw [hpass, hrest, List.append_assoc, List.singleton_append]
      | comment text htext =>
          have hbytes : 0 < (ConfLine.comment text htext).bytes.length := Nat.succ_pos _
          obtain ⟨items', hall, hrest⟩ := ih fuel _ items
            (ConfLine.advance_ending lines behind) (by omega) hitems
          refine ⟨items', hall, ?_⟩
          rw [← hrest, ← ConfLine.skipLine_comment htext]
          exact parseLoop_comment text (ConfLine.ending lines) behind
      | blank text htext =>
          obtain ⟨items', hall, hrest⟩ := ih (fuel + 1) ⟨ConfLine.text lines, behind⟩ items rfl
            (by omega) hitems
          refine ⟨items', hall, ?_⟩
          rw [← hrest]
          exact (parseLoop_blank text htext _ behind).trans (parseLoop_ending lines behind)

/-! ## Reading -/

/-- `strcmp` with the name of an item. -/
theorem Stores.strcmp {p : ConfPair} {item : ConfItem} (h : Stores p item) {name : List Byte}
    (hname : 0 ∉ name) (rest : List Byte) :
    ∃ d, ClayFigure.strcmp (cstr name ++ rest) item.name = some d ∧ (d = 0 ↔ p.name = name) := by
  obtain ⟨rest', heq⟩ := h.name
  have hkey : 0 ∉ p.name := fun hmem => absurd (p.name_key 0 hmem) (by decide)
  obtain ⟨d, hd, hiff⟩ := strcmp_cstr hname hkey rest rest'
  rw [heq]
  exact ⟨d, hd, hiff.trans eq_comm⟩

theorem Stores.strcpy {p : ConfPair} {item : ConfItem} (h : Stores p item) {value : List Byte}
    (hlen : p.value.length < value.length) : ClayFigure.strcpy value item.val =
      some (cstr p.value ++ value.drop (p.value.length + 1)) := by
  obtain ⟨rest, heq⟩ := h.val
  rw [heq]
  exact strcpy_cstr (fun hmem => (p.value_plain 0 hmem).2 rfl) hlen rest

/-- `read_config` copies the value of the first pair of the name. -/
theorem readConfig_eq {ps : List ConfPair} {items : List ConfItem}
    (hall : List.Forall₂ Stores ps items) {name : List Byte} (hname : 0 ∉ name)
    (rest value : List Byte) (valueLen : Nat) :
    (firstValue name ps = none →
      readConfig (cstr name ++ rest) value valueLen items = some (value, 0)) ∧
    ∀ v, firstValue name ps = some v → v.length ≤ valueLen → v.length < value.length →
      readConfig (cstr name ++ rest) value valueLen items =
        some (cstr v ++ value.drop (v.length + 1), v.length) := by
  induction hall with
  | nil =>
      refine ⟨fun _ => rfl, fun v hv => ?_⟩
      cases hv
  | @cons p item ps items hstores hall ih =>
      obtain ⟨d, hd, hiff⟩ := hstores.strcmp hname rest
      simp only [firstValue, readConfig, hd, Option.bind_eq_bind, Option.bind_some]
      by_cases hp : p.name = name
      · rw [if_pos hp, if_pos (hiff.mpr hp)]
        refine ⟨fun h => ?_, fun v hv hlen hroom => ?_⟩
        · cases h
        · cases hv
          rw [hstores.valLen, if_neg (Nat.not_lt.mpr hlen), hstores.strcpy hroom]
          rfl
      · rw [if_neg hp, if_neg (mt hiff.mp hp)]
        exact ih

/-- A file of at most 64 pairs among comments and blank lines is stored pair by pair, and
`read_config` finds the first pair of each name; the length is 0 for a name that has none. -/
theorem parseConfig_readConfig (past : Nat → Byte) (stack : Nat → ConfItem)
    {lines : List ConfLine} (hcount : (ConfLine.pairs lines).length ≤ 64) :
    ∃ items, parseConfig past stack (ConfLine.text lines) = some items ∧
      List.Forall₂ Stores (ConfLine.pairs lines) items ∧
      ∀ name rest value valueLen, 0 ∉ name →
        (firstValue name (ConfLine.pairs lines) = none →
          readConfig (cstr name ++ rest) value valueLen items = some (value, 0)) ∧
        ∀ v, firstValue name (ConfLine.pairs lines) = some v → v.length ≤ valueLen →
          v.length < value.length →
          readConfig (cstr name ++ rest) value valueLen items =
            some (cstr v ++ value.drop (v.length + 1), v.length) := by
  obtain ⟨items, hall, hparse⟩ := parseLoop_text past stack lines
    ((ConfLine.text lines).length + 1) (.ofFile (ConfLine.text lines)) [] rfl (Nat.lt_succ_self _)
    (by rw [List.length_nil, Nat.zero_add]; exact hcount)
  refine ⟨items, hparse, hall, fun name rest value valueLen hname => ?_⟩
  exact readConfig_eq hall hname rest value valueLen

/-! ## The file of the repository -/

/-- `VERSION = [0.0.0]`. -/
def versionPair : ConfPair where
  name := [86, 69, 82, 83, 73, 79, 78]
  value := [48, 46, 48, 46, 48]
  name_ne_nil := by decide
  name_le := by decide
  name_key := List.all_eq_true.mp rfl
  value_le := by decide
  value_plain := by simp
  value_start := by
    rintro b ⟨⟩
    rfl

/-- `VERSION = [1]`. -/
def laterPair : ConfPair where
  name := versionPair.name
  value := [49]
  name_ne_nil := versionPair.name_ne_nil
  name_le := versionPair.name_le
  name_key := versionPair.name_key
  value_le := by decide
  value_plain := by simp
  value_start := by
    rintro b ⟨⟩
    rfl

/-- The pair of `config.txt`, which is packed into the ramfs, behind a comment and in front of
another pair of its name. -/
def configTxt : List ConfLine :=
  [.comment [32, 86, 61, 91, 93] (by simp), .pair versionPair, .blank [] nofun, .pair laterPair]

/-- What `init_all` reads from it. -/
theorem configTxt_version : ∃ items,
    parseConfig (fun _ => 0) (fun _ => ⟨[], 0, [], 0⟩) (ConfLine.text configTxt) = some items ∧
      List.Forall₂ Stores [versionPair, laterPair] items ∧
      readConfig (cstr versionPair.name) (List.replicate 64 0xff) 63 items =
        some (cstr versionPair.value ++ List.replicate 58 0xff, 5) ∧
      readConfig (cstr [86]) (List.replicate 64 0xff) 63 items =
        some (List.replicate 64 0xff, 0) := by
  obtain ⟨items, hparse, hstores, hread⟩ := @parseConfig_readConfig (fun _ => 0)
    (fun _ => ⟨[], 0, [], 0⟩) configTxt (by decide)
  refine ⟨items, hparse, hstores, ?_, ?_⟩
  · have h := (hread versionPair.name [] (List.replicate 64 0xff) 63 (by decide)).2
      versionPair.value rfl (by decide) (by decide)
    rw [List.append_nil] at h
    exact h
  · have h := (hread [86] [] (List.replicate 64 0xff) 63 (by decide)).1 rfl
    rw [List.append_nil] at h
    exact h

end ClayFigure
