/-
# Filling a part of the screen

A task asks the service `view` to show a buffer of pixels on the screen. `view_fill` copies the
buffer into a page of its own and the pixels from there into the frame buffer. All numbers come
from the task: where the buffer is and how long, how many pixels there are in a row and how many
rows, and where on the screen the first one belongs.
-/

import ClayFigure.Service.ReadTaskMem

namespace ClayFigure

/-! ## The code -/

/-- `gi`, without the address of the frame buffer. -/
structure ViewInfo where
  xsize : Nat
  ysize : Nat
  pixelPerScanline : Nat

/-- The words of a `VIEW_FILL` message and the pid of its sender, as a word. -/
structure ViewFill where
  src : Nat
  buffer : Nat
  bufferSize : Nat
  xsize : Nat
  ysize : Nat
  x : Nat
  y : Nat

/-- What `view_fill` does in memory: a copy to the begin of its page, a pixel read from there on,
or one written from the begin of the frame buffer on. -/
inductive Access
  | copy (size : Nat)
  | read (pixel : Nat)
  | write (pixel : Nat)
  deriving DecidableEq

/-- The memory from the page of `view_fill` on, the frame buffer, whether the page is taken, and
the accesses so far. -/
structure View where
  page : Nat → Byte
  vram : Nat → List Byte
  allocated : Bool
  accesses : List Access

namespace View

/-- The bytes that `kern_read_task_mem` has stored. -/
def copy (v : View) (copied : List (Nat × Nat)) : View :=
  { v with
    page := fun k => if h : k < copied.length then UInt8.ofNat (copied.get ⟨k, h⟩).2 else v.page k
    accesses := .copy copied.length :: v.accesses }

/-- One pixel. -/
def pixel (gi : ViewInfo) (msg : ViewFill) (y : Nat) (v : View) (x : Nat) : View :=
  let source := mul32 y (msg.xsize % wordSize32) + x
  let target := mul32 (add32 (msg.y % wordSize32) y) gi.pixelPerScanline + msg.x % wordSize32 + x
  { v with
    vram := Function.update v.vram target ((List.range 4).map fun k => v.page (4 * source + k))
    accesses := .write target :: .read source :: v.accesses }

/-- One row. -/
def row (gi : ViewInfo) (msg : ViewFill) (v : View) (y : Nat) : View :=
  (List.range (msg.xsize % wordSize32)).foldl (pixel gi msg y) v

/-- `view_fill`. `page` is the memory from the page on if `allocate_page` finds one. -/
def viewFill (gi : ViewInfo) (tasks : TaskMem) (page : Option (Nat → Byte))
    (vram : Nat → List Byte) (msg : ViewFill) : View :=
  match page with
  | none => ⟨fun _ => 0, vram, false, []⟩
  | some page =>
      let v : View := ⟨page, vram, true, []⟩
      match tasks.kernReadTaskMem msg.src msg.buffer msg.bufferSize with
      | none => v -- the kernel has read through `NULL` and does not come back
      | some result =>
          { (List.range (msg.ysize % wordSize32)).foldl (row gi msg) (v.copy result.copied) with
            allocated := false }

/-! ## Inside -/

/-- The pixel of the frame buffer is one of the screen. -/
def OnScreen (gi : ViewInfo) (pixel : Nat) : Prop :=
  ∃ row < gi.ysize, ∃ column < gi.xsize, pixel = row * gi.pixelPerScanline + column

/-- An access is within the page, or to the screen. -/
def Inside (gi : ViewInfo) : Access → Prop
  | .copy size => size ≤ pgSize
  | .read pixel => pixel < pgSize / 4
  | .write pixel => OnScreen gi pixel

/-- `view_fill` keeps to its page and to the screen. -/
def FillsInside (gi : ViewInfo) (tasks : TaskMem) (page : Option (Nat → Byte))
    (vram : Nat → List Byte) (msg : ViewFill) : Prop :=
  ∀ a ∈ (viewFill gi tasks page vram msg).accesses, Inside gi a

/-- A run of pixels is on the screen: it ends in the row in which it begins, if behind the rows
there is something else, and otherwise anywhere before the end of the last row. -/
def RunVisible (gi : ViewInfo) (start n : Nat) : Prop :=
  if gi.xsize < gi.pixelPerScanline then
    start / gi.pixelPerScanline < gi.ysize ∧ start % gi.pixelPerScanline + n ≤ gi.xsize
  else 0 < gi.ysize ∧ start + n ≤ (gi.ysize - 1) * gi.pixelPerScanline + gi.xsize

/-! ## The accesses -/

variable {gi : ViewInfo} {tasks : TaskMem} {msg : ViewFill} {v : View} {a : Access}

/-- What a loop has accessed, by what one of its passes does. -/
theorem mem_foldl_accesses {f : View → Nat → View} {P : Nat → Prop}
    (hf : ∀ v k, a ∈ (f v k).accesses ↔ a ∈ v.accesses ∨ P k) (n : Nat) (v : View) :
    a ∈ ((List.range n).foldl f v).accesses ↔ a ∈ v.accesses ∨ ∃ k < n, P k := by
  induction n with
  | zero =>
      refine ⟨.inl, ?_⟩
      rintro (h | ⟨k, hk, -⟩)
      · exact h
      · exact absurd hk (Nat.not_lt_zero k)
  | succ n ih =>
      rw [List.range_succ, List.foldl_append, List.foldl_cons, List.foldl_nil, hf, ih, or_assoc]
      refine or_congr_right ⟨?_, ?_⟩
      · rintro (⟨k, hk, h⟩ | h)
        · exact ⟨k, Nat.lt_succ_of_lt hk, h⟩
        · exact ⟨n, Nat.lt_succ_self n, h⟩
      · rintro ⟨k, hk, h⟩
        rcases Nat.lt_succ_iff_lt_or_eq.mp hk with hlt | rfl
        · exact .inl ⟨k, hlt, h⟩
        · exact .inr h

/-- The first pixel of a row on the screen. -/
def rowStart (gi : ViewInfo) (msg : ViewFill) (y : Nat) : Nat :=
  mul32 (add32 (msg.y % wordSize32) y) gi.pixelPerScanline + msg.x % wordSize32

theorem mem_row_accesses (y : Nat) : a ∈ (row gi msg v y).accesses ↔ a ∈ v.accesses ∨
    ∃ x < msg.xsize % wordSize32, a = .read (mul32 y (msg.xsize % wordSize32) + x) ∨
      a = .write (rowStart gi msg y + x) := by
  refine mem_foldl_accesses (fun v x => ?_) _ v
  show a ∈ _ :: _ :: v.accesses ↔ _
  rw [List.mem_cons, List.mem_cons, ← or_assoc, or_comm, or_comm (a := a = _)]
  rfl

theorem forall_row_accesses_iff (n : Nat) (v : View) :
    (∀ a ∈ ((List.range n).foldl (row gi msg) v).accesses, Inside gi a) ↔
      (∀ a ∈ v.accesses, Inside gi a) ∧ ∀ y < n, ∀ x < msg.xsize % wordSize32,
        mul32 y (msg.xsize % wordSize32) + x < pgSize / 4 ∧ OnScreen gi (rowStart gi msg y + x) := by
  simp only [mem_foldl_accesses (fun v y => mem_row_accesses y)]
  constructor
  · intro h
    refine ⟨fun a ha => h a (.inl ha), fun y hy x hx => ⟨?_, ?_⟩⟩
    · exact h _ (.inr ⟨y, hy, x, hx, .inl rfl⟩)
    · exact h _ (.inr ⟨y, hy, x, hx, .inr rfl⟩)
  · rintro ⟨hv, h⟩ a (ha | ⟨y, hy, x, hx, rfl | rfl⟩)
    · exact hv a ha
    · exact (h y hy x hx).1
    · exact (h y hy x hx).2

/-! ## The page -/

/-- All pixels that are read are in the page just if no more than a page of them is asked for. -/
theorem forall_read_iff {xsize ysize : Nat} :
    (∀ y < ysize, ∀ x < xsize, mul32 y xsize + x < pgSize / 4) ↔ xsize * ysize ≤ pgSize / 4 := by
  have hpage : pgSize / 4 = 0x80000 := by decide
  rw [hpage]
  constructor
  · intro h
    by_contra hlt
    rw [Nat.not_le] at hlt
    have hxsize : 0 < xsize := Nat.pos_of_lt_mul_right hlt
    have hlast : xsize - 1 < xsize := Nat.sub_lt hxsize Nat.one_pos
    -- the row with the first pixel behind the page
    have hbegin : 0x80000 / xsize * xsize ≤ 0x80000 := Nat.div_mul_le_self 0x80000 xsize
    have hend : 0x80000 < (0x80000 / xsize + 1) * xsize := by
      rw [Nat.mul_comm]
      exact Nat.lt_mul_div_succ 0x80000 hxsize
    have hrow : 0x80000 / xsize < ysize := by
      refine Nat.lt_of_mul_lt_mul_right (a := xsize) (hbegin.trans_lt ?_)
      rw [Nat.mul_comm ysize]
      exact hlt
    have hread := h _ hrow _ hlast
    rw [mul32, Nat.mod_eq_of_lt (hbegin.trans_lt (by decide))] at hread
    rw [Nat.add_one_mul] at hend
    omega
  · intro h y hy x hx
    calc mul32 y xsize + x ≤ y * xsize + x := Nat.add_le_add_right (Nat.mod_le _ _) x
      _ < y * xsize + xsize := Nat.add_lt_add_left hx _
      _ = (y + 1) * xsize := (Nat.add_one_mul y xsize).symm
      _ ≤ ysize * xsize := Nat.mul_le_mul_right xsize hy
      _ = xsize * ysize := Nat.mul_comm ysize xsize
      _ ≤ 0x80000 := h

/-! ## The screen -/

theorem onScreen_iff_of_lt (hlt : gi.xsize < gi.pixelPerScanline) (pixel : Nat) :
    OnScreen gi pixel ↔
      pixel / gi.pixelPerScanline < gi.ysize ∧ pixel % gi.pixelPerScanline < gi.xsize := by
  constructor
  · rintro ⟨row, hrow, column, hcolumn, rfl⟩
    have hcol := Nat.lt_trans hcolumn hlt
    rw [Nat.mul_comm, Nat.mul_add_div (Nat.zero_lt_of_lt hlt), Nat.mul_add_mod,
      Nat.div_eq_of_lt hcol, Nat.mod_eq_of_lt hcol]
    exact ⟨hrow, hcolumn⟩
  · rintro ⟨hrow, hcolumn⟩
    exact ⟨_, hrow, _, hcolumn, (Nat.div_add_mod' pixel _).symm⟩

theorem onScreen_iff_of_le (hle : gi.pixelPerScanline ≤ gi.xsize) (pixel : Nat) :
    OnScreen gi pixel ↔
      0 < gi.ysize ∧ pixel < (gi.ysize - 1) * gi.pixelPerScanline + gi.xsize := by
  constructor
  · rintro ⟨row, hrow, column, hcolumn, rfl⟩
    have hlast := Nat.mul_le_mul_right gi.pixelPerScanline (Nat.le_sub_one_of_lt hrow)
    exact ⟨Nat.zero_lt_of_lt hrow, by omega⟩
  · rintro ⟨hpos, hlt⟩
    rcases Nat.lt_or_ge pixel ((gi.ysize - 1) * gi.pixelPerScanline) with hbefore | hlast
    · have hwidth : 0 < gi.pixelPerScanline := Nat.pos_of_lt_mul_left hbefore
      have hrow := Nat.div_lt_of_lt_mul (Nat.mul_comm _ _ ▸ hbefore)
      exact ⟨_, hrow.trans_le (Nat.sub_le _ _), _, (Nat.mod_lt pixel hwidth).trans_le hle,
        (Nat.div_add_mod' pixel _).symm⟩
    · exact ⟨gi.ysize - 1, Nat.sub_lt hpos Nat.one_pos, _,
        Nat.sub_lt_left_of_lt_add hlast hlt, (Nat.add_sub_cancel' hlast).symm⟩

/-- A run of pixels is on the screen as a whole. -/
theorem forall_onScreen_iff {start n : Nat} (hn : 0 < n) :
    (∀ x < n, OnScreen gi (start + x)) ↔ RunVisible gi start n := by
  rcases Nat.lt_or_ge gi.xsize gi.pixelPerScanline with hlt | hle
  · simp only [RunVisible, if_pos hlt, onScreen_iff_of_lt hlt]
    have hsplit := Nat.div_add_mod' start gi.pixelPerScanline
    constructor
    · intro h
      have hfirst := h 0 hn
      rw [Nat.add_zero] at hfirst
      refine ⟨hfirst.1, Nat.le_of_not_lt fun hover => ?_⟩
      -- the pixel right behind the visible part of the row
      have hbehind := (h (gi.xsize - start % gi.pixelPerScanline) (by omega)).2
      have heq : start + (gi.xsize - start % gi.pixelPerScanline) =
          start / gi.pixelPerScanline * gi.pixelPerScanline + gi.xsize := by
        omega
      rw [heq, Nat.mul_add_mod', Nat.mod_eq_of_lt hlt] at hbehind
      exact Nat.lt_irrefl _ hbehind
    · rintro ⟨hrow, hend⟩ x hx
      have hcol : start % gi.pixelPerScanline + x < gi.pixelPerScanline := by
        omega
      have heq : start + x = gi.pixelPerScanline * (start / gi.pixelPerScanline) +
          (start % gi.pixelPerScanline + x) := by
        rw [Nat.mul_comm]
        omega
      rw [heq, Nat.mul_add_div (Nat.zero_lt_of_lt hlt), Nat.mul_add_mod, Nat.div_eq_of_lt hcol,
        Nat.mod_eq_of_lt hcol]
      exact ⟨hrow, by omega⟩
  · simp only [RunVisible, if_neg (Nat.not_lt.mpr hle), onScreen_iff_of_le hle]
    constructor
    · intro h
      have hlast := h (n - 1) (Nat.sub_lt hn Nat.one_pos)
      exact ⟨hlast.1, by omega⟩
    · rintro ⟨hpos, hend⟩ x hx
      exact ⟨hpos, by omega⟩

/-! ## `view_fill` -/

/-- Without a page or without a sender nothing is accessed. -/
theorem fillsInside_of_none {page : Option (Nat → Byte)} {vram : Nat → List Byte}
    (h : page = none ∨ tasks.pidToTask (toPid msg.src) = none) :
    FillsInside gi tasks page vram msg := by
  intro a ha
  cases page with
  | none => cases ha
  | some page =>
      have hnone := h.resolve_left (Option.some_ne_none page)
      rw [viewFill, TaskMem.kernReadTaskMem, hnone] at ha
      cases ha

/-- The copy, then all rows. -/
theorem fillsInside_some_iff {page : Nat → Byte} {vram : Nat → List Byte} {result : ReadResult}
    (h : tasks.kernReadTaskMem msg.src msg.buffer msg.bufferSize = some result) :
    FillsInside gi tasks (some page) vram msg ↔ result.copied.length ≤ pgSize ∧
      ∀ y < msg.ysize % wordSize32, ∀ x < msg.xsize % wordSize32,
        mul32 y (msg.xsize % wordSize32) + x < pgSize / 4 ∧
          OnScreen gi (rowStart gi msg y + x) := by
  rw [FillsInside, viewFill, h]
  refine (forall_row_accesses_iff _ _).trans (and_congr_left fun _ => ?_)
  exact List.forall_mem_singleton

/-- The bytes that are copied are as many as asked for, if the buffer is mapped. -/
theorem copied_length_le_iff {pageDir : Nat} {result : ReadResult}
    (hpid : tasks.pidToTask (toPid msg.src) = some pageDir)
    (h : tasks.kernReadTaskMem msg.src msg.buffer msg.bufferSize = some result) :
    result.copied.length ≤ pgSize ↔
      tasks.mem.toPhysicalAddress pageDir msg.buffer = 0 ∨ msg.bufferSize ≤ pgSize := by
  rw [TaskMem.kernReadTaskMem, hpid, Option.map_some] at h
  obtain rfl := Option.some.inj h
  by_cases hphys : tasks.mem.toPhysicalAddress pageDir msg.buffer = 0
  · rw [if_pos hphys]
    exact iff_of_true (Nat.zero_le pgSize) (.inl hphys)
  · rw [if_neg hphys, Memory.memcpy, List.length_map, List.length_range, or_iff_right hphys]

/-- `view_fill` keeps to its page and to the screen just if it gets no page, or the sender's
buffer, if it is mapped, is no longer than the page, and either there are no pixels in a row, or
all of them are in the page and every row is visible. -/
theorem fillsInside_iff (gi : ViewInfo) (tasks : TaskMem) (page : Option (Nat → Byte))
    (vram : Nat → List Byte) (msg : ViewFill) : FillsInside gi tasks page vram msg ↔
      page = none ∨ ∀ pageDir, tasks.pidToTask (toPid msg.src) = some pageDir →
        (tasks.mem.toPhysicalAddress pageDir msg.buffer = 0 ∨ msg.bufferSize ≤ pgSize) ∧
        (msg.xsize % wordSize32 = 0 ∨
          msg.xsize % wordSize32 * (msg.ysize % wordSize32) ≤ pgSize / 4 ∧
            ∀ y < msg.ysize % wordSize32,
              RunVisible gi (rowStart gi msg y) (msg.xsize % wordSize32)) := by
  cases page with
  | none => exact iff_of_true (fillsInside_of_none (.inl rfl)) (.inl rfl)
  | some page =>
      rw [or_iff_right (Option.some_ne_none page)]
      cases hpid : tasks.pidToTask (toPid msg.src) with
      | none =>
          refine iff_of_true (fillsInside_of_none (.inr hpid)) ?_
          rintro _ ⟨⟩
      | some pageDir =>
          obtain ⟨result, hresult⟩ :
              ∃ result, tasks.kernReadTaskMem msg.src msg.buffer msg.bufferSize = some result :=
            ⟨_, by rw [TaskMem.kernReadTaskMem, hpid, Option.map_some]⟩
          rw [fillsInside_some_iff hresult, copied_length_le_iff hpid hresult]
          simp only [Option.some_inj, forall_eq']
          refine and_congr_right fun _ => ?_
          rcases Nat.eq_zero_or_pos (msg.xsize % wordSize32) with hzero | hpos
          · rw [hzero]
            exact iff_of_true (fun y _ x hx => absurd hx (Nat.not_lt_zero x)) (.inl rfl)
          · rw [or_iff_right (Nat.ne_of_gt hpos), ← forall_read_iff]
            simp only [← forall_onScreen_iff hpos]
            constructor
            · intro h
              exact ⟨fun y hy x hx => (h y hy x hx).1, fun y hy x hx => (h y hy x hx).2⟩
            · rintro ⟨hread, hwrite⟩ y hy x hx
              exact ⟨hread y hy x hx, hwrite y hy x hx⟩

/-- The page is free again, unless the kernel does not come back. -/
theorem viewFill_allocated {page : Option (Nat → Byte)} {vram : Nat → List Byte} {pageDir : Nat}
    (hpid : tasks.pidToTask (toPid msg.src) = some pageDir) :
    (viewFill gi tasks page vram msg).allocated = false := by
  cases page with
  | none => rfl
  | some page => rw [viewFill, TaskMem.kernReadTaskMem, hpid, Option.map_some]

/-- One pixel in the row right below a screen of 1024 by 768. -/
def belowScreen : ViewFill := ⟨1, 0x800000, 4, 1, 1, 0, 768⟩

/-- It is written all the same. -/
theorem belowScreen_not_fillsInside :
    ¬ FillsInside ⟨1024, 768, 1024⟩ ⟨fun _ => 0, fun _ => some 0⟩ (some fun _ => 0) (fun _ => [])
      belowScreen := by
  intro h
  rw [fillsInside_some_iff rfl] at h
  obtain ⟨row, hrow, column, hcolumn, heq⟩ := (h.2 0 (by decide) 0 (by decide)).2
  have hstart : rowStart ⟨1024, 768, 1024⟩ belowScreen 0 + 0 = 768 * 1024 := by decide
  rw [hstart] at heq
  replace hrow : row < 768 := hrow
  replace hcolumn : column < 1024 := hcolumn
  replace heq : 768 * 1024 = row * 1024 + column := heq
  omega

end View

end ClayFigure
