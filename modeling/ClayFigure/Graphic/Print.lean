/-
# Printing on the screen

`basic_print` of `graphic/print.c` moves a cursor in a text box and draws the characters of a
string. A newline and a line that is full share one branch, which takes the character away
whatever it is. The first result is that no pixel outside of the box is written; the second says
which strings are drawn without a loss.
-/

import Mathlib.Data.List.Basic
import ClayFigure.Kernel.Global

namespace ClayFigure

/-! ## The code -/

/-- `position_t`. -/
structure Position where
  x : Nat
  y : Nat
  deriving DecidableEq, Repr

/-- The size of the frame buffer in `graph_info_t`. -/
structure GraphInfo where
  verticalResolution : Nat
  pixelPerScanline : Nat
  deriving DecidableEq, Repr

/-- `textbox_t`. -/
structure Textbox where
  curPos : Position
  boxPos : Position
  xsize : Nat
  ysize : Nat
  charXsize : Nat
  charYsize : Nat
  deriving DecidableEq, Repr

/-- A store into the frame buffer: the index of the pixel and its colour. -/
abbrev PixelStore : Type := Nat × Nat

/-- `basic_put_char`: the stores in their order. `asciiCharacter` are the rows of each glyph. -/
def basicPutChar (asciiCharacter : Byte → Nat → Byte) (gi : GraphInfo) (tb : Textbox) (c : Byte)
    (col : Nat) : List PixelStore :=
  (List.range 16).flatMap fun i =>
    let data := asciiCharacter c i
    let pixel := mul32 (add32 (add32 tb.boxPos.y tb.curPos.y) i) gi.pixelPerScanline +
      tb.boxPos.x + tb.curPos.x
    (List.range 8).map (fun j => (pixel + j, 0)) ++
      ((List.range 8).filter fun j => data &&& ((0x80 : Byte) >>> UInt8.ofNat j) ≠ 0).map
        fun j => (pixel + j, col)

/-- `clear_line`: the stores in their order. -/
def clearLine (gi : GraphInfo) (tb : Textbox) : List PixelStore :=
  (List.range tb.charYsize).flatMap fun i =>
    (List.range tb.xsize).map fun j =>
      (mul32 (add32 (add32 tb.boxPos.y tb.curPos.y) i) gi.pixelPerScanline +
        add32 j tb.boxPos.x, 0)

/-- A call `basic_print` makes, with the text box as it is then. -/
inductive PrintCall
  | putChar (tb : Textbox) (c : Byte)
  | clearLine (tb : Textbox)
  deriving DecidableEq, Repr

namespace Textbox

def setCurPos (tb : Textbox) (x y : Nat) : Textbox := { tb with curPos := ⟨x, y⟩ }

/-- `max_x`. -/
def maxX (tb : Textbox) : Nat := sub32 tb.xsize tb.charXsize

/-- `max_y`. -/
def maxY (tb : Textbox) : Nat := sub32 tb.ysize tb.charYsize

/-- The cursor after a newline, or at the end of a full line. -/
def newLine (tb : Textbox) : Textbox :=
  let y := add32 tb.curPos.y tb.charYsize
  tb.setCurPos 0 (if y > tb.maxY then 0 else y)

/-- The cursor after a backspace. -/
def backspace (tb : Textbox) : Textbox :=
  if tb.curPos.x ≥ tb.charXsize then
    tb.setCurPos (sub32 tb.curPos.x tb.charXsize) tb.curPos.y
  else if tb.curPos.y ≥ tb.charYsize then
    tb.setCurPos 0 (sub32 tb.curPos.y tb.charYsize)
  else tb.setCurPos 0 0

/-- The cursor after a character is drawn. -/
def forward (tb : Textbox) : Textbox :=
  tb.setCurPos (add32 tb.curPos.x tb.charXsize) tb.curPos.y

end Textbox

/-- `basic_print` on the bytes of a string up to its zero: the text box afterwards and the calls
in their order. -/
def basicPrint : Textbox → List Byte → Textbox × List PrintCall
  | tb, [] => (tb, [])
  | tb, c :: s =>
      if c = 0 then (tb, [])
      else if c = 10 ∨ tb.curPos.x ≥ tb.maxX then
        let (tb', calls) := basicPrint tb.newLine s
        (tb', .clearLine tb.newLine :: calls)
      else if c = 8 then basicPrint tb.backspace s
      else if c = 13 then basicPrint (tb.setCurPos 0 tb.curPos.y) s
      else
        let (tb', calls) := basicPrint tb.forward s
        (tb', .putChar tb c :: calls)

/-- The stores of a call. -/
def PrintCall.stores (asciiCharacter : Byte → Nat → Byte) (gi : GraphInfo) (col : Nat) :
    PrintCall → List PixelStore
  | .putChar tb c => basicPutChar asciiCharacter gi tb c col
  | .clearLine tb => ClayFigure.clearLine gi tb

/-! ## Where the pixels are -/

/-- The pixel lies in the rectangle of the text box. -/
def Textbox.Contains (gi : GraphInfo) (tb : Textbox) (pixel : Nat) : Prop :=
  ∃ x y, tb.boxPos.x ≤ x ∧ x < tb.boxPos.x + tb.xsize ∧ tb.boxPos.y ≤ y ∧
    y < tb.boxPos.y + tb.ysize ∧ pixel = y * gi.pixelPerScanline + x

/-- A text box inside the frame buffer, with room for a character. -/
structure Textbox.Fits (gi : GraphInfo) (tb : Textbox) : Prop where
  charXsize : 8 ≤ tb.charXsize ∧ tb.charXsize ≤ tb.xsize
  charYsize : 16 ≤ tb.charYsize ∧ tb.charYsize ≤ tb.ysize
  right : tb.boxPos.x + tb.xsize ≤ gi.pixelPerScanline
  bottom : tb.boxPos.y + tb.ysize ≤ gi.verticalResolution
  indices : gi.verticalResolution * gi.pixelPerScanline ≤ wordSize32

/-- The line of the cursor lies in the box. -/
def Textbox.CursorInside (tb : Textbox) : Prop := tb.curPos.y ≤ tb.ysize - tb.charYsize

instance : DecidablePred Textbox.CursorInside := fun _ => inferInstanceAs (Decidable (_ ≤ _))

theorem mem_basicPutChar {asciiCharacter : Byte → Nat → Byte} {gi : GraphInfo} {tb : Textbox}
    {c : Byte} {col : Nat} {store : PixelStore}
    (h : store ∈ basicPutChar asciiCharacter gi tb c col) : ∃ i < 16, ∃ j < 8, store.1 =
      mul32 (add32 (add32 tb.boxPos.y tb.curPos.y) i) gi.pixelPerScanline +
        tb.boxPos.x + tb.curPos.x + j := by
  obtain ⟨i, hi, h⟩ := List.mem_flatMap.mp h
  rcases List.mem_append.mp h with h | h
  · obtain ⟨j, hj, rfl⟩ := List.mem_map.mp h
    exact ⟨i, List.mem_range.mp hi, j, List.mem_range.mp hj, rfl⟩
  · obtain ⟨j, hj, rfl⟩ := List.mem_map.mp h
    exact ⟨i, List.mem_range.mp hi, j, List.mem_range.mp (List.mem_of_mem_filter hj), rfl⟩

theorem mem_clearLine {gi : GraphInfo} {tb : Textbox} {store : PixelStore}
    (h : store ∈ clearLine gi tb) : ∃ i < tb.charYsize, ∃ j < tb.xsize, store.1 =
      mul32 (add32 (add32 tb.boxPos.y tb.curPos.y) i) gi.pixelPerScanline +
        add32 j tb.boxPos.x := by
  obtain ⟨i, hi, h⟩ := List.mem_flatMap.mp h
  obtain ⟨j, hj, rfl⟩ := List.mem_map.mp h
  exact ⟨i, List.mem_range.mp hi, j, List.mem_range.mp hj, rfl⟩

namespace Textbox

variable {gi : GraphInfo} {tb : Textbox}

/-- The rows and columns of the box do not wrap. -/
theorem Fits.lt (h : tb.Fits gi) {y : Nat} (hy : y < tb.boxPos.y + tb.ysize) :
    tb.boxPos.x + tb.xsize < wordSize32 ∧ y < wordSize32 ∧
      y * gi.pixelPerScanline < wordSize32 := by
  have hpos : 0 < gi.pixelPerScanline := by
    have := h.charXsize
    have := h.right
    omega
  have hrow : y + 1 ≤ gi.verticalResolution := hy.trans_le h.bottom
  have hrows : (y + 1) * gi.pixelPerScanline ≤ wordSize32 :=
    (Nat.mul_le_mul_right _ hrow).trans h.indices
  rw [Nat.add_mul, Nat.one_mul] at hrows
  have hy' : y ≤ y * gi.pixelPerScanline := Nat.le_mul_of_pos_right y hpos
  -- the box has sixteen rows, so that a scanline is far from the bound
  have htwo : 2 ≤ gi.verticalResolution := by
    have := h.charYsize
    have := h.bottom
    omega
  have hline := (Nat.mul_le_mul_right gi.pixelPerScanline htwo).trans h.indices
  have := h.right
  omega

/-- Row `i` of the cursor's line and column `k` of the box. -/
theorem Fits.contains (h : tb.Fits gi) {i k : Nat} (hi : tb.curPos.y + i < tb.ysize)
    (hk : k < tb.xsize) :
    tb.Contains gi (mul32 (add32 (add32 tb.boxPos.y tb.curPos.y) i) gi.pixelPerScanline +
      (tb.boxPos.x + k)) := by
  obtain ⟨-, hy, hindex⟩ := h.lt (y := tb.boxPos.y + tb.curPos.y + i) (by omega)
  have hfirst : add32 tb.boxPos.y tb.curPos.y = tb.boxPos.y + tb.curPos.y :=
    Nat.mod_eq_of_lt (lt_of_le_of_lt (Nat.le_add_right _ i) hy)
  have hrow : add32 (tb.boxPos.y + tb.curPos.y) i = tb.boxPos.y + tb.curPos.y + i :=
    Nat.mod_eq_of_lt hy
  rw [hfirst, hrow, mul32, Nat.mod_eq_of_lt hindex]
  exact ⟨tb.boxPos.x + k, _, by omega, by omega, by omega, by omega, rfl⟩

theorem Fits.maxX (h : tb.Fits gi) : tb.maxX = tb.xsize - tb.charXsize := by
  obtain ⟨hx, -, -⟩ := h.lt (y := 0) (by have := h.charYsize; omega)
  have := h.charXsize
  unfold Textbox.maxX sub32 wordSize32 at *
  omega

theorem Fits.ysize_lt (h : tb.Fits gi) : tb.ysize < wordSize32 := by
  have hpos := h.charYsize
  obtain ⟨-, hy, -⟩ := h.lt (y := tb.boxPos.y + tb.ysize - 1) (by omega)
  obtain ⟨-, -, hindex⟩ := h.lt (y := tb.boxPos.y + tb.ysize - 1) (by omega)
  have hwide : 2 ≤ gi.pixelPerScanline := by
    have := h.charXsize
    have := h.right
    omega
  have := Nat.mul_le_mul_left (tb.boxPos.y + tb.ysize - 1) hwide
  unfold wordSize32 at *
  omega

theorem Fits.maxY (h : tb.Fits gi) : tb.maxY = tb.ysize - tb.charYsize := by
  have hy := h.ysize_lt
  have := h.charYsize
  unfold Textbox.maxY sub32 wordSize32 at *
  omega

/-- Moving the cursor changes nothing else. -/
theorem Fits.setCurPos (h : tb.Fits gi) (x y : Nat) : (tb.setCurPos x y).Fits gi :=
  ⟨h.charXsize, h.charYsize, h.right, h.bottom, h.indices⟩

theorem exists_backspace (tb : Textbox) : ∃ x y, tb.backspace = tb.setCurPos x y := by
  unfold backspace
  split_ifs
  · exact ⟨_, _, rfl⟩
  · exact ⟨_, _, rfl⟩
  · exact ⟨_, _, rfl⟩

/-- A newline goes down a line, or to the top. -/
theorem Fits.cursorInside_newLine (h : tb.Fits gi) : tb.newLine.CursorInside := by
  change (if add32 tb.curPos.y tb.charYsize > tb.maxY then 0
    else add32 tb.curPos.y tb.charYsize) ≤ tb.ysize - tb.charYsize
  rw [h.maxY]
  split_ifs with hlast
  · exact Nat.zero_le _
  · exact not_lt.mp hlast

theorem cursorInside_setCurPos (tb : Textbox) (x y : Nat) :
    (tb.setCurPos x y).CursorInside ↔ y ≤ tb.ysize - tb.charYsize := Iff.rfl

/-- A backspace does not leave the box: it goes up by a line at most. -/
theorem CursorInside.backspace (hcursor : tb.CursorInside) (h : tb.Fits gi) :
    tb.backspace.CursorInside := by
  have hlt := h.ysize_lt
  unfold CursorInside at hcursor
  unfold Textbox.backspace
  by_cases hx : tb.curPos.x ≥ tb.charXsize
  · rw [if_pos hx, cursorInside_setCurPos]
    exact hcursor
  rw [if_neg hx]
  by_cases hy : tb.curPos.y ≥ tb.charYsize
  · rw [if_pos hy, cursorInside_setCurPos]
    unfold sub32 wordSize32 at *
    omega
  · rw [if_neg hy, cursorInside_setCurPos]
    exact Nat.zero_le _

end Textbox

/-! ## The string -/

section Inside

variable {asciiCharacter : Byte → Nat → Byte} {gi : GraphInfo} {tb : Textbox} {c : Byte} {col : Nat}

/-- A character is drawn inside the box, when its line is not full. -/
theorem basicPutChar_inside (h : tb.Fits gi) (hcursor : tb.CursorInside)
    (hx : tb.curPos.x < tb.maxX) {store : PixelStore}
    (hstore : store ∈ basicPutChar asciiCharacter gi tb c col) : tb.Contains gi store.1 := by
  obtain ⟨i, hi, j, hj, heq⟩ := mem_basicPutChar hstore
  have hxsize := h.charXsize
  have hysize := h.charYsize
  rw [h.maxX] at hx
  unfold Textbox.CursorInside at hcursor
  rw [heq, Nat.add_assoc, Nat.add_assoc]
  exact h.contains (by omega) (by omega)

theorem clearLine_inside (h : tb.Fits gi) (hcursor : tb.CursorInside) {store : PixelStore}
    (hstore : store ∈ clearLine gi tb) : tb.Contains gi store.1 := by
  obtain ⟨i, hi, j, hj, heq⟩ := mem_clearLine hstore
  have hysize := h.charYsize
  unfold Textbox.CursorInside at hcursor
  obtain ⟨hxsize, -, -⟩ := h.lt (y := 0) (by omega)
  have hcolumn : add32 j tb.boxPos.x = tb.boxPos.x + j := by
    rw [add32, Nat.add_comm]
    exact Nat.mod_eq_of_lt (by omega)
  rw [heq, hcolumn]
  exact h.contains (by omega) hj

variable (asciiCharacter gi col) in
/-- All that the calls write lies in the box. -/
def WritesInside (tb : Textbox) (calls : List PrintCall) : Prop :=
  ∀ call ∈ calls, ∀ store ∈ call.stores asciiCharacter gi col, tb.Contains gi store.1

/-- The box and the line of the cursor are kept by every character, whatever it is. -/
theorem basicPrint_writesInside (asciiCharacter : Byte → Nat → Byte) (col : Nat) (s : List Byte) :
    ∀ tb : Textbox, tb.Fits gi → tb.CursorInside →
      WritesInside asciiCharacter gi col tb (basicPrint tb s).2 ∧
        (basicPrint tb s).1.CursorInside ∧ ∃ x y, (basicPrint tb s).1 = tb.setCurPos x y := by
  induction s with
  | nil => exact fun tb _ hcursor => ⟨nofun, hcursor, tb.curPos.x, tb.curPos.y, rfl⟩
  | cons c s ih =>
      intro tb h hcursor
      unfold basicPrint
      by_cases hend : c = 0
      · rw [if_pos hend]
        exact ⟨nofun, hcursor, tb.curPos.x, tb.curPos.y, rfl⟩
      rw [if_neg hend]
      by_cases hline : c = 10 ∨ tb.curPos.x ≥ tb.maxX
      · rw [if_pos hline]
        have hfits : tb.newLine.Fits gi := h.setCurPos ..
        obtain ⟨hwrites, hinside, x, y, heq⟩ := ih tb.newLine hfits h.cursorInside_newLine
        refine ⟨?_, hinside, x, y, heq⟩
        intro call hcall store hstore
        rcases List.mem_cons.mp hcall with rfl | hcall
        · exact clearLine_inside hfits h.cursorInside_newLine hstore
        · exact hwrites call hcall store hstore
      rw [if_neg hline]
      by_cases hback : c = 8
      · rw [if_pos hback]
        obtain ⟨x, y, hmove⟩ := tb.exists_backspace
        obtain ⟨hwrites, hinside, x', y', heq⟩ := ih tb.backspace (hmove ▸ h.setCurPos x y)
          (hcursor.backspace h)
        rw [hmove] at hwrites hinside heq ⊢
        exact ⟨hwrites, hinside, x', y', heq⟩
      rw [if_neg hback]
      by_cases hreturn : c = 13
      · rw [if_pos hreturn]
        obtain ⟨hwrites, hinside, x, y, heq⟩ := ih _ (h.setCurPos 0 tb.curPos.y) hcursor
        exact ⟨hwrites, hinside, x, y, heq⟩
      rw [if_neg hreturn]
      obtain ⟨hwrites, hinside, x, y, heq⟩ := ih tb.forward (h.setCurPos ..) hcursor
      refine ⟨?_, hinside, x, y, heq⟩
      intro call hcall store hstore
      rcases List.mem_cons.mp hcall with rfl | hcall
      · exact basicPutChar_inside h hcursor (not_le.mp (not_or.mp hline).2) hstore
      · exact hwrites call hcall store hstore

end Inside

/-- `basic_print` writes only inside its box, and leaves the cursor on a line of the box. -/
theorem basicPrint_inside (asciiCharacter : Byte → Nat → Byte) (gi : GraphInfo) (tb : Textbox)
    (col : Nat) (s : List Byte) (h : tb.Fits gi) (hcursor : tb.CursorInside) :
    (∀ call ∈ (basicPrint tb s).2, ∀ store ∈ call.stores asciiCharacter gi col,
      tb.Contains gi store.1) ∧
    (basicPrint tb s).1.CursorInside ∧ ∃ x y, (basicPrint tb s).1 = tb.setCurPos x y :=
  basicPrint_writesInside asciiCharacter col s tb h hcursor

/-- A box of 16 × 32 pixels on a screen of 64 × 64. -/
def smallBox : Textbox := ⟨⟨0, 16⟩, ⟨8, 16⟩, 16, 32, 8, 16⟩

theorem smallBox_fits : smallBox.Fits ⟨64, 64⟩ := by
  constructor <;> decide

/-- A line that fills up and wraps to the top. -/
theorem smallBox_inside :
    (∀ call ∈ (basicPrint smallBox [97, 98, 99]).2, ∀ store ∈ call.stores (fun _ _ => 0) ⟨64, 64⟩ 7,
      smallBox.Contains ⟨64, 64⟩ store.1) ∧
    (basicPrint smallBox [97, 98, 99]).1.CursorInside ∧
      ∃ x y, (basicPrint smallBox [97, 98, 99]).1 = smallBox.setCurPos x y :=
  basicPrint_inside (fun _ _ => 0) ⟨64, 64⟩ smallBox 7 [97, 98, 99] smallBox_fits (by decide)

/-! ## What is drawn -/

/-- A character with a glyph: no newline, carriage return or backspace. -/
def isDrawable (c : Byte) : Bool := c ≠ 10 && c ≠ 13 && c ≠ 8

/-- The characters the calls draw. -/
def drawnChars (calls : List PrintCall) : List Byte :=
  calls.filterMap fun
    | .putChar _ c => some c
    | .clearLine _ => none

/-- All drawable characters of the string are drawn, once and in order, and none on a full
line. -/
def DrawsAll (tb : Textbox) (s : List Byte) : Prop :=
  drawnChars (basicPrint tb s).2 = s.filter isDrawable ∧
    ∀ tb' c, .putChar tb' c ∈ (basicPrint tb s).2 → tb'.curPos.x < tb'.maxX

/-- Every drawable character of the string finds a line that is not full: `x` is the column of
the cursor, counted along the string. -/
def FitsLines (charXsize maxX : Nat) : Nat → List Byte → Prop
  | _, [] => True
  | x, c :: s =>
      if isDrawable c then x < maxX ∧ FitsLines charXsize maxX (x + charXsize) s
      else if c = 8 ∧ x < maxX ∧ charXsize ≤ x then FitsLines charXsize maxX (x - charXsize) s
      else FitsLines charXsize maxX 0 s

/-- Two branches of the loop take a character away without drawing it; each other one draws it
or is not for drawable ones. -/
theorem basicPrint_drawn (s : List Byte) : ∀ tb : Textbox,
    List.Sublist (drawnChars (basicPrint tb s).2) (s.filter isDrawable) ∧
      ∀ tb' c, .putChar tb' c ∈ (basicPrint tb s).2 → tb'.curPos.x < tb'.maxX := by
  induction s with
  | nil => exact fun tb => ⟨List.Sublist.refl _, nofun⟩
  | cons c s ih =>
      intro tb
      unfold basicPrint
      by_cases hend : c = 0
      · rw [if_pos hend]
        exact ⟨List.nil_sublist _, nofun⟩
      rw [if_neg hend]
      by_cases hline : c = 10 ∨ tb.curPos.x ≥ tb.maxX
      · rw [if_pos hline]
        obtain ⟨hsub, hcalls⟩ := ih tb.newLine
        refine ⟨hsub.trans ((List.sublist_cons_self c s).filter _), ?_⟩
        intro tb' c' hmem
        exact hcalls tb' c' ((List.mem_cons.mp hmem).resolve_left nofun)
      rw [if_neg hline]
      by_cases hback : c = 8
      · rw [if_pos hback]
        obtain ⟨hsub, hcalls⟩ := ih tb.backspace
        exact ⟨hsub.trans ((List.sublist_cons_self c s).filter _), hcalls⟩
      rw [if_neg hback]
      by_cases hreturn : c = 13
      · rw [if_pos hreturn]
        obtain ⟨hsub, hcalls⟩ := ih (tb.setCurPos 0 tb.curPos.y)
        exact ⟨hsub.trans ((List.sublist_cons_self c s).filter _), hcalls⟩
      rw [if_neg hreturn]
      obtain ⟨hsub, hcalls⟩ := ih tb.forward
      obtain ⟨hnewline, hfull⟩ := not_or.mp hline
      constructor
      · rw [List.filter_cons_of_pos (by simp [isDrawable, hnewline, hreturn, hback])]
        exact hsub.cons_cons c
      · intro tb' c' hmem
        rcases List.mem_cons.mp hmem with heq | hmem
        · obtain ⟨rfl, rfl⟩ := PrintCall.putChar.inj heq
          exact not_le.mp hfull
        · exact hcalls tb' c' hmem

/-- One column further to the right than there is room for cannot be reached: the addition and
the subtraction of the cursor do not wrap. -/
theorem Textbox.forward_x {tb : Textbox} (hsize : tb.charXsize ≤ tb.xsize)
    (hxsize : tb.xsize < wordSize32) (hx : tb.curPos.x < tb.maxX) :
    tb.forward.curPos.x = tb.curPos.x + tb.charXsize ∧ tb.forward.curPos.x < wordSize32 := by
  change add32 tb.curPos.x tb.charXsize = _ ∧ add32 tb.curPos.x tb.charXsize < _
  unfold Textbox.maxX sub32 at hx
  unfold add32 wordSize32 at *
  omega

theorem Textbox.backspace_x {tb : Textbox} (hx : tb.curPos.x < wordSize32) :
    tb.backspace.curPos.x =
      if tb.charXsize ≤ tb.curPos.x then tb.curPos.x - tb.charXsize else 0 := by
  unfold Textbox.backspace
  by_cases hle : tb.charXsize ≤ tb.curPos.x
  · rw [if_pos hle, if_pos hle]
    change sub32 tb.curPos.x tb.charXsize = _
    unfold sub32 wordSize32 at *
    omega
  · rw [if_neg hle, if_neg hle]
    split_ifs
    · rfl
    · rfl

/-- All drawable characters are drawn just when none of them meets a full line. -/
theorem drawnChars_eq_iff (s : List Byte) (hs : 0 ∉ s) : ∀ tb : Textbox,
    tb.charXsize ≤ tb.xsize → tb.xsize < wordSize32 → tb.curPos.x < wordSize32 →
      (drawnChars (basicPrint tb s).2 = s.filter isDrawable ↔
        FitsLines tb.charXsize tb.maxX tb.curPos.x s) := by
  induction s with
  | nil => exact fun tb _ _ _ => iff_of_true rfl trivial
  | cons c s ih =>
      intro tb hsize hxsize hx
      have hend : c ≠ 0 := fun h => hs (h ▸ List.mem_cons_self ..)
      have ih := ih fun h => hs (List.mem_cons_of_mem c h)
      have hzero : 0 < wordSize32 := by decide
      unfold basicPrint FitsLines
      rw [if_neg hend]
      by_cases hline : c = 10 ∨ tb.curPos.x ≥ tb.maxX
      · rw [if_pos hline]
        have hrest := ih tb.newLine hsize hxsize hzero
        by_cases hdraw : isDrawable c = true
        · -- the character is lost
          have hne : c ≠ 10 := fun h => absurd hdraw (by simp [isDrawable, h])
          rw [if_pos hdraw, List.filter_cons_of_pos hdraw]
          refine iff_of_false (fun heq => ?_) fun h => absurd h.1 (not_lt.mpr (hline.resolve_left hne))
          have hlen := ((basicPrint_drawn s tb.newLine).1).length_le
          have heq : drawnChars (basicPrint tb.newLine s).2 = c :: s.filter isDrawable := heq
          rw [heq] at hlen
          exact absurd hlen (Nat.not_succ_le_self _)
        · rw [if_neg hdraw, List.filter_cons_of_neg hdraw, if_neg (by
            rintro ⟨rfl, hlt, -⟩
            exact absurd hlt (not_lt.mpr (hline.resolve_left (by decide))))]
          exact hrest
      rw [if_neg hline]
      obtain ⟨hnewline, hfull⟩ := not_or.mp hline
      have hlt := not_le.mp hfull
      by_cases hback : c = 8
      · subst hback
        rw [if_pos rfl, if_neg (by decide), List.filter_cons_of_neg (by decide)]
        obtain ⟨x, y, hmove⟩ := tb.exists_backspace
        have hcolumn := Textbox.backspace_x hx
        have hrest := ih tb.backspace (hmove ▸ hsize) (hmove ▸ hxsize) (by
          rw [hcolumn]
          split_ifs <;> omega)
        rw [hrest, hcolumn, show tb.backspace.charXsize = tb.charXsize by rw [hmove]; rfl,
          show tb.backspace.maxX = tb.maxX by rw [hmove]; rfl]
        by_cases hle : tb.charXsize ≤ tb.curPos.x
        · rw [if_pos hle, if_pos ⟨rfl, hlt, hle⟩]
        · rw [if_neg hle, if_neg fun h => hle h.2.2]
      rw [if_neg hback]
      by_cases hreturn : c = 13
      · subst hreturn
        rw [if_pos rfl, if_neg (by decide), if_neg fun h => absurd h.1 (by decide),
          List.filter_cons_of_neg (by decide)]
        exact ih (tb.setCurPos 0 tb.curPos.y) hsize hxsize hzero
      rw [if_neg hreturn]
      have hdraw : isDrawable c = true := by simp [isDrawable, hnewline, hreturn, hback]
      obtain ⟨hcolumn, hbound⟩ := Textbox.forward_x hsize hxsize hlt
      have hrest := ih tb.forward hsize hxsize hbound
      rw [hcolumn] at hrest
      rw [if_pos hdraw, List.filter_cons_of_pos hdraw, and_iff_right hlt]
      exact (List.cons_inj_right c).trans hrest

/-- What `basic_print` draws. -/
theorem basicPrint_drawsAll_iff (tb : Textbox) (s : List Byte) (hs : 0 ∉ s)
    (hwide : tb.charXsize ≤ tb.xsize) (hxsize : tb.xsize < wordSize32)
    (hx : tb.curPos.x < wordSize32) :
    DrawsAll tb s ↔ FitsLines tb.charXsize tb.maxX tb.curPos.x s := by
  have hdrawn := drawnChars_eq_iff s hs tb hwide hxsize hx
  exact (and_iff_left (basicPrint_drawn s tb).2).trans hdrawn

/-- A newline where the line fills up. -/
theorem smallBox_drawsAll : DrawsAll smallBox [97, 10, 98] :=
  (basicPrint_drawsAll_iff smallBox [97, 10, 98] (by decide) (by decide) (by decide)
    (by decide)).mpr ⟨by decide, by decide, trivial⟩

/-- Without it the second character only wraps the line. -/
theorem smallBox_not_drawsAll : ¬ DrawsAll smallBox [97, 98] := by
  rintro ⟨hdrawn, -⟩
  revert hdrawn
  decide

end ClayFigure
