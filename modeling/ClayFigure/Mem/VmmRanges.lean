/-
# What the range tables represent

The blocks of a table stay sorted, separated and not empty, so the table is a faithful
picture of a set of addresses: adding and removing a range changes the set by just
that range, and a search for room looks at every run there is.
-/

import Mathlib.Order.Bounds.Defs
import ClayFigure.Mem.Vmm

namespace ClayFigure

open ClayFigure.Math

/-- The addresses of a block. -/
def VmmBlock.range (block : VmmBlock) : Range Nat := ⟨block.start, block.start + block.size⟩

namespace Vmm

/-- The addresses of a table. -/
def addresses (vmm : Vmm) : Set Nat := Range.cover (vmm.list.map VmmBlock.range)

/-- The blocks are in order, apart and not empty, none wraps, and they fit. -/
structure Compact (vmm : Vmm) : Prop where
  separated : Range.Separated (vmm.list.map VmmBlock.range)
  noWrap : ∀ b ∈ vmm.list, b.start + b.size < wordSize
  fits : vmm.usingBlocks ≤ vmm.totalBlocks

/-- The capacity stays, and no cell behind it is written. -/
def Within (vmm t : Vmm) : Prop :=
  t.totalBlocks = vmm.totalBlocks ∧ ∀ j, vmm.totalBlocks ≤ j → t.blocks j = vmm.blocks j

/-! ## Adding a range -/

/-- What `vmm_add_range` does: it joins the range with the block before it, the block
behind it or both, or makes a new block if there is a cell for it. -/
inductive AddRange (vmm : Vmm) (start size : Nat) : Status → Vmm → Prop
  | joinBoth {t : Vmm} (pre post : List VmmBlock) (b c : VmmBlock)
      (hlist : vmm.list = pre ++ b :: c :: post) (hb : b.start + b.size = start)
      (hc : start + size = c.start)
      (ht : t.list = pre ++ ⟨b.start, b.size + size + c.size⟩ :: post) (hin : vmm.Within t) :
      AddRange vmm start size .kSuccess t
  | joinBefore {t : Vmm} (pre post : List VmmBlock) (b : VmmBlock)
      (hlist : vmm.list = pre ++ b :: post) (hb : b.start + b.size = start)
      (hpost : ∀ c ∈ post, start + size < c.start)
      (ht : t.list = pre ++ ⟨b.start, b.size + size⟩ :: post) (hin : vmm.Within t) :
      AddRange vmm start size .kSuccess t
  | joinBehind {t : Vmm} (pre post : List VmmBlock) (c : VmmBlock)
      (hlist : vmm.list = pre ++ c :: post) (hc : start + size = c.start)
      (hpre : ∀ b ∈ pre, b.start + b.size < start)
      (ht : t.list = pre ++ ⟨start, c.size + size⟩ :: post) (hin : vmm.Within t) :
      AddRange vmm start size .kSuccess t
  | new {t : Vmm} (pre post : List VmmBlock) (hlist : vmm.list = pre ++ post)
      (hpre : ∀ b ∈ pre, b.start + b.size < start) (hpost : ∀ c ∈ post, start + size < c.start)
      (hroom : vmm.usingBlocks < vmm.totalBlocks) (ht : t.list = pre ++ ⟨start, size⟩ :: post)
      (hin : vmm.Within t) : AddRange vmm start size .kSuccess t
  | full (pre post : List VmmBlock) (hlist : vmm.list = pre ++ post)
      (hpre : ∀ b ∈ pre, b.start + b.size < start) (hpost : ∀ c ∈ post, start + size < c.start)
      (hfull : vmm.totalBlocks ≤ vmm.usingBlocks) : AddRange vmm start size .kError vmm

/-- The blocks before and behind a range that is not in the table. -/
theorem Compact.neighbours {vmm : Vmm} (h : vmm.Compact) {start size : Nat} (hsize : 0 < size)
    (hdisjoint : Disjoint (Set.Ico start (start + size)) vmm.addresses) {i : Nat}
    (hbelow : ∀ b ∈ vmm.list.take i, b.start ≤ start)
    (habove : i < vmm.usingBlocks → start < (vmm.blocks i).start) :
    (∀ b ∈ vmm.list.take i, b.start + b.size ≤ start) ∧
      ∀ c ∈ vmm.list.drop i, start + size ≤ c.start := by
  have hnot (b : VmmBlock) (hb : b ∈ vmm.list) (x : Nat) (hlo : b.start ≤ x)
      (hhi : x < b.start + b.size) : x < start ∨ start + size ≤ x := by
    by_contra hx
    rw [not_or, not_lt, not_le] at hx
    exact Set.disjoint_left.mp hdisjoint ⟨hx.1, hx.2⟩
      ⟨b.range, List.mem_map_of_mem hb, hlo, hhi⟩
  have hpos (b : VmmBlock) (hb : b ∈ vmm.list) : 0 < b.size := by
    have := h.separated.nonempty b.range (List.mem_map_of_mem hb)
    simp only [VmmBlock.range] at this
    omega
  refine ⟨fun b hb => ?_, fun c hc => ?_⟩
  · have hmem := List.mem_of_mem_take hb
    by_contra hlt
    have := hnot b hmem start (hbelow b hb) (by omega)
    omega
  · have hmem := List.mem_of_mem_drop hc
    have hstart : start < c.start := by
      by_cases hi : i < vmm.usingBlocks
      · have hsep := h.separated
        rw [list_split hi, List.map_append, List.map_cons] at hsep
        obtain ⟨-, -, -, -, hgt⟩ := hsep.split
        rw [drop_list hi] at hc
        rcases List.mem_cons.mp hc with rfl | hc
        · exact habove hi
        · have := hgt c.range (List.mem_map_of_mem hc)
          have := habove hi
          simp only [VmmBlock.range] at *
          omega
      · rw [List.drop_of_length_le (by simpa using not_lt.mp hi)] at hc
        exact absurd hc List.not_mem_nil
    have := hnot c hmem c.start (le_refl _) (by have := hpos c hmem; omega)
    omega

/-- Only the last block before a range can touch it. -/
theorem Compact.before_lt {vmm : Vmm} (h : vmm.Compact) {start i : Nat} (hi : i ≤ vmm.usingBlocks)
    (hpre : ∀ b ∈ vmm.list.take i, b.start + b.size ≤ start)
    (hne : 0 < i → (vmm.blocks (i - 1)).start + (vmm.blocks (i - 1)).size ≠ start) :
    ∀ b ∈ vmm.list.take i, b.start + b.size < start := by
  cases i with
  | zero => simp
  | succ i =>
      have hsep := h.separated.sublist ((List.take_sublist (i + 1) vmm.list).map VmmBlock.range)
      rw [take_list hi] at hpre hsep ⊢
      rw [List.map_append] at hsep
      have hlast := lt_of_le_of_ne (hpre (vmm.blocks i) (by simp)) (hne (Nat.succ_pos i))
      intro b hb
      rcases List.mem_append.mp hb with hb | hb
      · exact hsep.below_of_last hlast.le b.range (List.mem_map_of_mem hb)
      · rw [List.mem_singleton.mp hb]
        exact hlast

/-- Only the first block behind a range can touch it. -/
theorem Compact.behind_lt {vmm : Vmm} (h : vmm.Compact) {stop i : Nat}
    (hpost : ∀ c ∈ vmm.list.drop i, stop ≤ c.start)
    (hne : i < vmm.usingBlocks → stop ≠ (vmm.blocks i).start) :
    ∀ c ∈ vmm.list.drop i, stop < c.start := by
  by_cases hi : i < vmm.usingBlocks
  · have hsep := h.separated.sublist ((List.drop_sublist i vmm.list).map VmmBlock.range)
    rw [drop_list hi] at hpost hsep ⊢
    rw [List.map_cons] at hsep
    have hfirst := lt_of_le_of_ne (hpost (vmm.blocks i) (by simp)) (hne hi)
    intro c hc
    rcases List.mem_cons.mp hc with rfl | hc
    · exact hfirst
    · exact hsep.above_of_first hfirst.le c.range (List.mem_map_of_mem hc)
  · rw [List.drop_of_length_le (by simpa using not_lt.mp hi)]
    simp

theorem within_moveForward (vmm : Vmm) {i : Nat} (hfits : vmm.usingBlocks ≤ vmm.totalBlocks) :
    vmm.Within ({ vmm with usingBlocks := vmm.usingBlocks - 1 }.moveForward i) := by
  refine ⟨rfl, fun j hj => ?_⟩
  simp only [moveForward, moveForwardFrom_apply]
  rw [if_neg (by omega)]

theorem within_moveBackward (vmm : Vmm) {i : Nat} (hi : i ≤ vmm.usingBlocks)
    (hroom : vmm.usingBlocks < vmm.totalBlocks) (block : VmmBlock) :
    vmm.Within ({ vmm.moveBackward i with usingBlocks := vmm.usingBlocks + 1 }.setBlock i
      block) := by
  refine ⟨rfl, fun j hj => ?_⟩
  simp only [moveBackward, setBlock, Function.update_apply, moveBackwardFrom_apply]
  rw [if_neg (by omega), if_neg (by omega)]

theorem within_setBlock {vmm : Vmm} {i : Nat} (hi : i < vmm.totalBlocks) (block : VmmBlock) :
    vmm.Within (vmm.setBlock i block) := by
  refine ⟨rfl, fun j hj => ?_⟩
  simp only [setBlock, Function.update_apply]
  rw [if_neg (by omega)]

theorem Within.trans {vmm t u : Vmm} (h : vmm.Within t) (h' : t.Within u) : vmm.Within u :=
  ⟨h'.1.trans h.1, fun j hj => (h'.2 j (h.1 ▸ hj)).trans (h.2 j hj)⟩

theorem take_append_drop_append (front back : List VmmBlock) (x : VmmBlock) :
    (front ++ x :: back).take (front.length + 1) ++
      (front ++ x :: back).drop (front.length + 1 + 1) = front ++ x :: back.drop 1 := by
  rw [Nat.add_assoc, List.take_length_add_append, List.drop_length_add_append]
  simp

theorem take_insert_append (front back : List VmmBlock) (x y : VmmBlock) :
    (front ++ x :: back).take (front.length + 1) ++
      y :: (front ++ x :: back).drop (front.length + 1) = front ++ x :: y :: back := by
  rw [List.take_length_add_append, List.drop_length_add_append]
  simp

/-- `vmm_add_range` of a range that is not in the table. -/
theorem Compact.addRange {vmm : Vmm} (h : vmm.Compact) {start size : Nat} (hsize : 0 < size)
    (hwrap : start + size < wordSize)
    (hdisjoint : Disjoint (Set.Ico start (start + size)) vmm.addresses) :
    vmm.AddRange start size (vmm.vmmAddRange start size).1 (vmm.vmmAddRange start size).2 := by
  obtain ⟨hi, hbelow, habove⟩ := vmm.search_spec fun block => start < block.start
  unfold vmmAddRange
  generalize hsearch : (vmm.search fun block => start < block.start) = i at *
  obtain ⟨hpre, hpost⟩ := h.neighbours hsize hdisjoint
    (fun b hb => by simpa using hbelow b hb) (fun hlt => by simpa using habove hlt)
  have hfits := h.fits
  have hnowrap (j : Nat) (hj : j < vmm.usingBlocks) :
      add64 (vmm.blocks j).start (vmm.blocks j).size =
        (vmm.blocks j).start + (vmm.blocks j).size := by
    apply add64_of_lt
    apply h.noWrap
    rw [list_split hj]
    simp
  have hstop : add64 start size = start + size := add64_of_lt hwrap
  simp only [hstop]
  have hbehind (hne : i < vmm.usingBlocks → start + size ≠ (vmm.blocks i).start) :=
    h.behind_lt hpost hne
  have hbefore (hne : 0 < i → (vmm.blocks (i - 1)).start + (vmm.blocks (i - 1)).size ≠ start) :=
    h.before_lt hi hpre hne
  by_cases hjoin : 0 < i ∧ add64 (vmm.blocks (i - 1)).start (vmm.blocks (i - 1)).size = start
  · rw [if_pos hjoin]
    obtain ⟨hpos, hend⟩ := hjoin
    obtain ⟨i, rfl⟩ := Nat.exists_eq_add_one.mpr hpos
    rw [Nat.add_sub_cancel, hnowrap i (by omega)] at hend
    have hlt : i < vmm.usingBlocks := by omega
    have hsize : add64 (vmm.blocks i).size size = (vmm.blocks i).size + size :=
      add64_of_lt (by omega)
    have hin (block : VmmBlock) : vmm.Within (vmm.setBlock i block) :=
      within_setBlock (by omega) block
    rw [Nat.add_sub_cancel, hsize, usingBlocks_setBlock]
    split_ifs with hlast hboth
    · exact .joinBefore _ _ _ (list_split hlt) hend (hbehind fun hi => by omega)
        (list_setBlock hlt _) (hin _)
    · have hlt' : i + 1 < vmm.usingBlocks := by omega
      have hsize' : add64 ((vmm.blocks i).size + size) (vmm.blocks (i + 1)).size =
          (vmm.blocks i).size + size + (vmm.blocks (i + 1)).size := by
        apply add64_of_lt
        have := h.noWrap (vmm.blocks (i + 1)) (by rw [list_split hlt']; simp)
        omega
      rw [hsize', setBlock_setBlock]
      refine .joinBoth (vmm.list.take i) (vmm.list.drop (i + 2)) (vmm.blocks i)
        (vmm.blocks (i + 1)) ?_ hend hboth ?_
        ((hin _).trans (within_moveForward (vmm.setBlock i _) hfits))
      · rw [← drop_list hlt', ← list_split hlt]
      · have hlen : (vmm.list.take i).length = i := by
          rw [List.length_take, length_list]
          omega
        have hcut := take_append_drop_append (vmm.list.take i) (vmm.list.drop (i + 1))
          ⟨(vmm.blocks i).start, (vmm.blocks i).size + size + (vmm.blocks (i + 1)).size⟩
        rw [hlen, List.drop_drop] at hcut
        rw [list_moveForward (vmm.setBlock i _) hlt', list_setBlock hlt]
        exact hcut
    · exact .joinBefore _ _ _ (list_split hlt) hend (hbehind fun _ => hboth)
        (list_setBlock hlt _) (hin _)
  · rw [if_neg hjoin]
    have hne : 0 < i → (vmm.blocks (i - 1)).start + (vmm.blocks (i - 1)).size ≠ start :=
      fun hpos heq => hjoin ⟨hpos, by rw [hnowrap _ (by omega), heq]⟩
    split_ifs with hbeh hroom
    · obtain ⟨hlt, hc⟩ := hbeh
      have hsize' : add64 (vmm.blocks i).size size = (vmm.blocks i).size + size := by
        apply add64_of_lt
        have := h.noWrap (vmm.blocks i) (by rw [list_split hlt]; simp)
        omega
      rw [hsize']
      exact .joinBehind _ _ _ (list_split hlt) hc (hbefore hne) (list_setBlock hlt _)
        (within_setBlock (by omega) _)
    · have hnb : i < vmm.usingBlocks → start + size ≠ (vmm.blocks i).start :=
        fun hlt heq => hbeh ⟨hlt, heq⟩
      exact .new _ _ (List.take_append_drop i vmm.list).symm (hbefore hne) (hbehind hnb) hroom
        (list_moveBackward vmm hi _) (within_moveBackward vmm hi hroom _)
    · have hnb : i < vmm.usingBlocks → start + size ≠ (vmm.blocks i).start :=
        fun hlt heq => hbeh ⟨hlt, heq⟩
      exact .full _ _ (List.take_append_drop i vmm.list).symm (hbefore hne) (hbehind hnb)
        (not_lt.mp hroom)

/-! ## Removing a range -/

/-- What `vmm_remove_range` does: it cuts the range out of the block that contains it, if
there is one, which takes a free cell when both ends of the block stay. -/
inductive RemoveRange (vmm : Vmm) (start size : Nat) : Status → Vmm → Prop
  | notFound
      (hno : ∀ b ∈ vmm.list, ¬ (b.start ≤ start ∧ start + size ≤ b.start + b.size)) :
      RemoveRange vmm start size .kNotFound vmm
  | whole {t : Vmm} (pre post : List VmmBlock) (b : VmmBlock)
      (hlist : vmm.list = pre ++ b :: post) (hb : b = ⟨start, size⟩) (ht : t.list = pre ++ post)
      (hin : vmm.Within t) : RemoveRange vmm start size .kSuccess t
  | middle {t : Vmm} (pre post : List VmmBlock) (b : VmmBlock)
      (hlist : vmm.list = pre ++ b :: post) (hlo : b.start < start)
      (hhi : start + size < b.start + b.size) (hroom : vmm.usingBlocks < vmm.totalBlocks)
      (ht : t.list = pre ++ ⟨b.start, start - b.start⟩ ::
        ⟨start + size, b.start + b.size - (start + size)⟩ :: post)
      (hin : vmm.Within t) : RemoveRange vmm start size .kSuccess t
  | full (pre post : List VmmBlock) (b : VmmBlock) (hlist : vmm.list = pre ++ b :: post)
      (hlo : b.start < start) (hhi : start + size < b.start + b.size)
      (hfull : vmm.totalBlocks ≤ vmm.usingBlocks) :
      RemoveRange vmm start size .kOutOfResource vmm
  | front {t : Vmm} (pre post : List VmmBlock) (b : VmmBlock)
      (hlist : vmm.list = pre ++ b :: post) (hlo : b.start = start)
      (hhi : start + size < b.start + b.size)
      (ht : t.list = pre ++ ⟨start + size, b.start + b.size - (start + size)⟩ :: post)
      (hin : vmm.Within t) : RemoveRange vmm start size .kSuccess t
  | back {t : Vmm} (pre post : List VmmBlock) (b : VmmBlock)
      (hlist : vmm.list = pre ++ b :: post) (hlo : b.start < start)
      (hhi : start + size = b.start + b.size)
      (ht : t.list = pre ++ ⟨b.start, start - b.start⟩ :: post)
      (hin : vmm.Within t) : RemoveRange vmm start size .kSuccess t

/-- `vmm_remove_range`. -/
theorem Compact.removeRange {vmm : Vmm} (h : vmm.Compact) {start size : Nat}
    (hwrap : start + size < wordSize) :
    vmm.RemoveRange start size (vmm.vmmRemoveRange start size).1
      (vmm.vmmRemoveRange start size).2 := by
  have hstop : add64 start size = start + size := add64_of_lt hwrap
  have hends (b : VmmBlock) (hb : b ∈ vmm.list) : add64 b.start b.size = b.start + b.size :=
    add64_of_lt (h.noWrap b hb)
  obtain ⟨hi, hno, hyes⟩ := vmm.search_spec fun block =>
    block.start ≤ start ∧ add64 start size ≤ add64 block.start block.size
  have hfits := h.fits
  unfold vmmRemoveRange
  simp only [hstop] at *
  generalize hsearch : (vmm.search fun block =>
    block.start ≤ start ∧ start + size ≤ add64 block.start block.size) = i at *
  by_cases hlt : i < vmm.usingBlocks
  · have hmem : vmm.blocks i ∈ vmm.list := by
      rw [list_split hlt]
      simp
    have hin := hyes hlt
    have hwrap' := h.noWrap _ hmem
    simp only [hends _ hmem, decide_eq_true_eq] at hin ⊢
    obtain ⟨hlo, hhi⟩ := hin
    have hfront : sub64 start (vmm.blocks i).start = start - (vmm.blocks i).start :=
      sub64_of_le hlo (by omega)
    have hback : sub64 ((vmm.blocks i).start + (vmm.blocks i).size) (start + size) =
        (vmm.blocks i).start + (vmm.blocks i).size - (start + size) := sub64_of_le hhi hwrap'
    rw [hfront, hback, if_neg (by omega)]
    split_ifs with hwhole hmiddle hfull hfront hback
    · refine .whole _ _ _ (list_split hlt) ?_ (list_moveForward vmm hlt) (within_moveForward vmm hfits)
      have hsize : (vmm.blocks i).size = size := by omega
      rw [hwhole.1, ← hsize]
    · exact .full _ _ _ (list_split hlt) hmiddle.1 hmiddle.2 hfull
    · have hset := list_setBlock hlt
        { vmm.blocks i with size := start - (vmm.blocks i).start }
      have hlen : (vmm.list.take i).length = i := by
        rw [List.length_take, length_list]
        omega
      refine .middle _ _ _ (list_split hlt) hmiddle.1 hmiddle.2 (not_le.mp hfull)
        ((list_moveBackward (vmm.setBlock i _) (i := i + 1) hlt _).trans ?_)
        ((within_setBlock (by omega) _).trans
          (within_moveBackward (vmm.setBlock i _) (i := i + 1) hlt (not_le.mp hfull) _))
      have hcut := take_insert_append (vmm.list.take i) (vmm.list.drop (i + 1))
        ⟨(vmm.blocks i).start, start - (vmm.blocks i).start⟩
        ⟨start + size, (vmm.blocks i).start + (vmm.blocks i).size - (start + size)⟩
      rw [hlen] at hcut
      rw [hset]
      exact hcut
    · exact .front _ _ _ (list_split hlt) hfront.symm (by omega) (list_setBlock hlt _)
        (within_setBlock (by omega) _)
    · exact .back _ _ _ (list_split hlt) (by omega) hback (list_setBlock hlt _)
        (within_setBlock (by omega) _)
    · omega
  · rw [if_pos (not_lt.mp hlt)]
    refine .notFound fun b hb hin => ?_
    have hall : vmm.list.take i = vmm.list :=
      List.take_of_length_le (by rw [length_list]; exact not_lt.mp hlt)
    rw [← hall] at hb
    have hfalse := hno b hb
    rw [hall] at hb
    rw [hends b hb] at hfalse
    simp [hin] at hfalse

/-! ## The set of addresses -/

section Effect

variable {vmm t : Vmm} {start size : Nat} {status : Status}

/-- A table keeps its shape when a block that has a gap on either side is put into it. -/
theorem compact_insert {pre post : List VmmBlock} {b : VmmBlock} (ht : t.list = pre ++ b :: post)
    (hin : vmm.Within t) (hlen : (pre ++ b :: post).length ≤ vmm.totalBlocks)
    (hpre : Range.Separated (pre.map VmmBlock.range))
    (hpost : Range.Separated (post.map VmmBlock.range)) (hsize : 0 < b.size)
    (hbelow : ∀ a ∈ pre, a.start + a.size < b.start)
    (habove : ∀ c ∈ post, b.start + b.size < c.start)
    (hwrap : ∀ a ∈ pre ++ b :: post, a.start + a.size < wordSize) : t.Compact := by
  refine ⟨?_, ht ▸ hwrap, ?_⟩
  · rw [ht, List.map_append, List.map_cons]
    apply hpre.insert hpost
    · simpa [VmmBlock.range] using hsize
    · intro a ha
      obtain ⟨a', ha', rfl⟩ := List.mem_map.mp ha
      exact hbelow a' ha'
    · intro c hc
      obtain ⟨c', hc', rfl⟩ := List.mem_map.mp hc
      exact habove c' hc'
  · rw [hin.1, ← length_list, ht]
    exact hlen

/-- What is known of a block in a compact table, and of the blocks before and behind it. -/
theorem Compact.split (h : vmm.Compact) {pre post : List VmmBlock} {b : VmmBlock}
    (hlist : vmm.list = pre ++ b :: post) :
    Range.Separated (pre.map VmmBlock.range) ∧ Range.Separated (post.map VmmBlock.range) ∧
      0 < b.size ∧ (∀ a ∈ pre, a.start + a.size < b.start) ∧
      ∀ c ∈ post, b.start + b.size < c.start := by
  have hsep := h.separated
  rw [hlist, List.map_append, List.map_cons] at hsep
  obtain ⟨hpre, hpost, hb, hbelow, habove⟩ := hsep.split
  refine ⟨hpre, hpost, ?_, fun a ha => hbelow a.range (List.mem_map_of_mem ha),
    fun c hc => habove c.range (List.mem_map_of_mem hc)⟩
  simpa [VmmBlock.range] using hb

theorem Compact.length_le (h : vmm.Compact) {bs : List VmmBlock} (hlist : vmm.list = bs) :
    bs.length ≤ vmm.totalBlocks := by
  rw [← hlist, length_list]
  exact h.fits

/-- The blocks of `bs` do not wrap when each is one of the old ones or `b`. -/
theorem Compact.noWrap_insert (h : vmm.Compact) {pre post : List VmmBlock} {b : VmmBlock}
    (hpre : ∀ a ∈ pre, a ∈ vmm.list) (hpost : ∀ a ∈ post, a ∈ vmm.list)
    (hb : b.start + b.size < wordSize) :
    ∀ a ∈ pre ++ b :: post, a.start + a.size < wordSize := by
  intro a ha
  rcases List.mem_append.mp ha with ha | ha
  · exact h.noWrap a (hpre a ha)
  · rcases List.mem_cons.mp ha with rfl | ha
    · exact hb
    · exact h.noWrap a (hpost a ha)

/-- A table stays compact when a range is added. -/
theorem AddRange.compact (hadd : vmm.AddRange start size status t) (h : vmm.Compact)
    (hsize : 0 < size) (hwrap : start + size < wordSize) : t.Compact := by
  cases hadd with
  | joinBoth pre post b c hlist hb hc ht hin =>
      obtain ⟨hpre, -, hbsize, hbelow, -⟩ := h.split hlist
      have hlist' : vmm.list = (pre ++ [b]) ++ c :: post := by simp [hlist]
      obtain ⟨-, hpost, -, -, habove⟩ := h.split hlist'
      have hcwrap := h.noWrap c (by simp [hlist])
      have hlen := h.length_le hlist
      simp only [List.length_append, List.length_cons] at hlen
      refine compact_insert ht hin ?_ hpre hpost ?_ hbelow (fun d hd => ?_)
        (h.noWrap_insert (fun a ha => by simp [hlist, ha]) (fun a ha => by simp [hlist, ha]) ?_)
      · simp only [List.length_append, List.length_cons]
        omega
      · simp only
        omega
      · have := habove d hd
        simp only
        omega
      · simp only
        omega
  | joinBefore pre post b hlist hb hpost ht hin =>
      obtain ⟨hpre, hrest, hbsize, hbelow, -⟩ := h.split hlist
      have hlen := h.length_le hlist
      simp only [List.length_append, List.length_cons] at hlen
      refine compact_insert ht hin ?_ hpre hrest ?_ hbelow (fun d hd => ?_)
        (h.noWrap_insert (fun a ha => by simp [hlist, ha]) (fun a ha => by simp [hlist, ha]) ?_)
      · simp only [List.length_append, List.length_cons]
        omega
      · simp only
        omega
      · have := hpost d hd
        simp only
        omega
      · simp only
        omega
  | joinBehind pre post c hlist hc hpre ht hin =>
      obtain ⟨hpre', hrest, hcsize, -, habove⟩ := h.split hlist
      have hcwrap := h.noWrap c (by simp [hlist])
      have hlen := h.length_le hlist
      simp only [List.length_append, List.length_cons] at hlen
      refine compact_insert ht hin ?_ hpre' hrest ?_ hpre (fun d hd => ?_)
        (h.noWrap_insert (fun a ha => by simp [hlist, ha]) (fun a ha => by simp [hlist, ha]) ?_)
      · simp only [List.length_append, List.length_cons]
        omega
      · simp only
        omega
      · have := habove d hd
        simp only
        omega
      · simp only
        omega
  | new pre post hlist hpre hpost hroom ht hin =>
      have hsep := h.separated
      rw [hlist, List.map_append] at hsep
      have hlen := vmm.length_list
      rw [hlist, List.length_append] at hlen
      refine compact_insert ht hin ?_ (hsep.sublist (List.sublist_append_left _ _))
        (hsep.sublist (List.sublist_append_right _ _)) hsize hpre hpost
        (h.noWrap_insert (fun a ha => by simp [hlist, ha]) (fun a ha => by simp [hlist, ha])
          hwrap)
      simp only [List.length_append, List.length_cons]
      omega
  | full => exact h

/-- A successful add adds exactly the range, and a failing one changes nothing. -/
theorem AddRange.addresses (hadd : vmm.AddRange start size status t) :
    status = .kSuccess ∧ t.addresses = vmm.addresses ∪ Set.Ico start (start + size) ∨
      status ≠ .kSuccess ∧ t = vmm := by
  have hgrow (pre old mid post : List VmmBlock) (hlist : vmm.list = pre ++ (old ++ post))
      (ht : t.list = pre ++ (mid ++ post))
      (hmid : Range.cover (mid.map VmmBlock.range) =
        Range.cover (old.map VmmBlock.range) ∪ Set.Ico start (start + size)) :
      t.addresses = vmm.addresses ∪ Set.Ico start (start + size) := by
    rw [Vmm.addresses, Vmm.addresses, hlist, ht, List.map_append, List.map_append,
      List.map_append, List.map_append]
    exact Range.cover_grow hmid
  cases hadd with
  | joinBoth pre post b c hlist hb hc ht hin =>
      refine Or.inl ⟨rfl, hgrow pre [b, c] [_] post hlist ht ?_⟩
      ext x
      simp only [List.map_cons, List.map_nil, Range.cover_cons, Range.cover_nil, VmmBlock.range,
        Set.union_empty, Set.mem_union, Set.mem_Ico]
      omega
  | joinBefore pre post b hlist hb hpost ht hin =>
      refine Or.inl ⟨rfl, hgrow pre [b] [_] post hlist ht ?_⟩
      ext x
      simp only [List.map_cons, List.map_nil, Range.cover_cons, Range.cover_nil, VmmBlock.range,
        Set.union_empty, Set.mem_union, Set.mem_Ico]
      omega
  | joinBehind pre post c hlist hc hpre ht hin =>
      refine Or.inl ⟨rfl, hgrow pre [c] [_] post hlist ht ?_⟩
      ext x
      simp only [List.map_cons, List.map_nil, Range.cover_cons, Range.cover_nil, VmmBlock.range,
        Set.union_empty, Set.mem_union, Set.mem_Ico]
      omega
  | new pre post hlist hpre hpost hroom ht hin =>
      refine Or.inl ⟨rfl, hgrow pre [] [_] post hlist ht ?_⟩
      ext x
      simp [Range.cover_cons, VmmBlock.range]
  | full => exact Or.inr ⟨nofun, rfl⟩

/-- A block `b` is cut down to the blocks `mid`, which leaves out just the range. -/
theorem Compact.cut (h : vmm.Compact) {pre post : List VmmBlock} (mid : List VmmBlock)
    {b : VmmBlock}
    (hlist : vmm.list = pre ++ b :: post) (ht : t.list = pre ++ (mid ++ post))
    (hin : vmm.Within t) (hlen : (pre ++ (mid ++ post)).length ≤ vmm.totalBlocks)
    (hlo : b.start ≤ start) (hhi : start + size ≤ b.start + b.size)
    (hmid : Range.Separated (mid.map VmmBlock.range))
    (hinside : ∀ m ∈ mid, b.start ≤ m.start ∧ m.start + m.size ≤ b.start + b.size)
    (hcover : Range.cover (mid.map VmmBlock.range) =
      Set.Ico b.start (b.start + b.size) \ Set.Ico start (start + size)) :
    t.Compact ∧ t.addresses = vmm.addresses \ Set.Ico start (start + size) ∧
      Set.Ico start (start + size) ⊆ vmm.addresses := by
  have hsep := h.separated
  have hmem : b ∈ vmm.list := by simp [hlist]
  rw [hlist, List.map_append, List.map_cons] at hsep
  have hranges : t.list.map VmmBlock.range = pre.map VmmBlock.range ++
      (mid.map VmmBlock.range ++ post.map VmmBlock.range) := by
    rw [ht, List.map_append, List.map_append]
  refine ⟨⟨?_, fun c hc => ?_, ?_⟩, ?_, Range.subset_cover (List.mem_map_of_mem hmem) hlo hhi⟩
  · rw [hranges]
    apply hsep.shrink hmid
    intro m hm
    obtain ⟨m', hm', rfl⟩ := List.mem_map.mp hm
    exact hinside m' hm'
  · rw [ht] at hc
    rcases List.mem_append.mp hc with hc | hc
    · exact h.noWrap c (by simp [hlist, hc])
    · rcases List.mem_append.mp hc with hc | hc
      · exact (hinside c hc).2.trans_lt (h.noWrap b hmem)
      · exact h.noWrap c (by simp [hlist, hc])
  · rw [hin.1, ← length_list, ht]
    exact hlen
  · rw [Vmm.addresses, Vmm.addresses, hranges, hlist, List.map_append, List.map_cons]
    exact hsep.cover_shrink hlo hhi hcover

/-- A successful remove removes exactly the range; one that fails with `K_NOT_FOUND` was
asked for a range that is not all there; a failing one changes nothing. -/
theorem RemoveRange.addresses (hremove : vmm.RemoveRange start size status t) (h : vmm.Compact)
    (hsize : 0 < size) :
    t.Compact ∧
      (status = .kSuccess ∧ Set.Ico start (start + size) ⊆ vmm.addresses ∧
          t.addresses = vmm.addresses \ Set.Ico start (start + size) ∨
        status = .kNotFound ∧ ¬ Set.Ico start (start + size) ⊆ vmm.addresses ∧ t = vmm ∨
        status = .kOutOfResource ∧ Set.Ico start (start + size) ⊆ vmm.addresses ∧ t = vmm) := by
  cases hremove with
  | notFound hno =>
      refine ⟨h, Or.inr (Or.inl ⟨rfl, fun hsub => ?_, rfl⟩)⟩
      obtain ⟨r, hr, hlo, hhi⟩ := h.separated.exists_of_subset (by omega) hsub
      obtain ⟨b, hb, rfl⟩ := List.mem_map.mp hr
      exact hno b hb ⟨hlo, hhi⟩
  | whole pre post b hlist hb ht hin =>
      subst hb
      have hlen := h.length_le hlist
      simp only [List.length_append, List.length_cons] at hlen
      obtain ⟨hcompact, haddresses, hsub⟩ := h.cut [] hlist ht hin
        (by simp only [List.nil_append, List.length_append]; omega) (le_refl start) (le_refl _)
        .nil nofun (by simp)
      exact ⟨hcompact, Or.inl ⟨rfl, hsub, haddresses⟩⟩
  | middle pre post b hlist hlo hhi hroom ht hin =>
      have hlen := length_list vmm
      rw [hlist] at hlen
      simp only [List.length_append, List.length_cons] at hlen
      have ht' : t.list = pre ++ ([⟨b.start, start - b.start⟩,
        ⟨start + size, b.start + b.size - (start + size)⟩] ++ post) := ht
      have hsep : Range.Separated ([⟨b.start, start - b.start⟩,
          ⟨start + size, b.start + b.size - (start + size)⟩].map VmmBlock.range) := by
        refine ⟨?_, ?_⟩
        · simp only [List.map_cons, List.map_nil, List.mem_cons, List.not_mem_nil, or_false,
            VmmBlock.range]
          rintro r (rfl | rfl)
          · simp only
            omega
          · simp only
            omega
        · simp only [List.map_cons, List.map_nil, VmmBlock.range, List.pairwise_cons,
            List.mem_singleton, forall_eq, List.not_mem_nil, false_imp_iff, implies_true, and_true,
            List.Pairwise.nil]
          omega
      obtain ⟨hcompact, haddresses, hsub⟩ := h.cut _ hlist ht' hin
        (by simp only [List.length_append, List.length_cons, List.length_nil]; omega) hlo.le hhi.le
        hsep
        (by
          simp only [List.mem_cons, List.not_mem_nil, or_false]
          rintro m (rfl | rfl)
          · simp only
            omega
          · simp only
            omega)
        (by
          ext x
          simp only [List.map_cons, List.map_nil, Range.cover_cons, Range.cover_nil,
            VmmBlock.range, Set.union_empty, Set.mem_union, Set.mem_sdiff, Set.mem_Ico]
          omega)
      exact ⟨hcompact, Or.inl ⟨rfl, hsub, haddresses⟩⟩
  | full pre post b hlist hlo hhi hfull =>
      refine ⟨h, Or.inr (Or.inr ⟨rfl, ?_, rfl⟩)⟩
      exact Range.subset_cover (List.mem_map_of_mem (by simp [hlist] : b ∈ vmm.list)) hlo.le hhi.le
  | front pre post b hlist hlo hhi ht hin =>
      have hlen := h.length_le hlist
      have ht' : t.list = pre ++ ([⟨start + size, b.start + b.size - (start + size)⟩] ++ post) :=
        ht
      obtain ⟨hcompact, haddresses, hsub⟩ := h.cut _ hlist ht' hin (by simpa using hlen) hlo.le
        hhi.le
        ⟨by
          simp only [List.map_cons, List.map_nil, List.mem_singleton, forall_eq, VmmBlock.range]
          omega, by simp⟩
        (by
          simp only [List.mem_singleton, forall_eq]
          omega)
        (by
          ext x
          simp only [List.map_cons, List.map_nil, Range.cover_cons, Range.cover_nil,
            VmmBlock.range, Set.union_empty, Set.mem_sdiff, Set.mem_Ico]
          omega)
      exact ⟨hcompact, Or.inl ⟨rfl, hsub, haddresses⟩⟩
  | back pre post b hlist hlo hhi ht hin =>
      have hlen := h.length_le hlist
      have ht' : t.list = pre ++ ([⟨b.start, start - b.start⟩] ++ post) := ht
      obtain ⟨hcompact, haddresses, hsub⟩ := h.cut _ hlist ht' hin (by simpa using hlen) hlo.le
        hhi.le
        ⟨by
          simp only [List.map_cons, List.map_nil, List.mem_singleton, forall_eq, VmmBlock.range]
          omega, by simp⟩
        (by
          simp only [List.mem_singleton, forall_eq]
          omega)
        (by
          ext x
          simp only [List.map_cons, List.map_nil, Range.cover_cons, Range.cover_nil,
            VmmBlock.range, Set.union_empty, Set.mem_sdiff, Set.mem_Ico]
          omega)
      exact ⟨hcompact, Or.inl ⟨rfl, hsub, haddresses⟩⟩

theorem RemoveRange.within (hremove : vmm.RemoveRange start size status t) : vmm.Within t := by
  cases hremove with
  | notFound | full => exact ⟨rfl, fun _ _ => rfl⟩
  | whole | middle | front | back => assumption

theorem AddRange.within (hadd : vmm.AddRange start size status t) : vmm.Within t := by
  cases hadd with
  | full => exact ⟨rfl, fun _ _ => rfl⟩
  | joinBoth | joinBefore | joinBehind | new => assumption

/-- An address is in one block at most. -/
theorem Compact.block_unique (h : vmm.Compact) {b c : VmmBlock} (hb : b ∈ vmm.list)
    (hc : c ∈ vmm.list) {x : Nat} (hxb : b.start ≤ x ∧ x < b.start + b.size)
    (hxc : c.start ≤ x ∧ x < c.start + c.size) : b = c := by
  obtain ⟨pre, post, hlist⟩ := List.append_of_mem hb
  obtain ⟨-, -, -, hbelow, habove⟩ := h.split hlist
  rw [hlist] at hc
  rcases List.mem_append.mp hc with hc | hc
  · have := hbelow c hc
    omega
  · rcases List.mem_cons.mp hc with heq | hc
    · exact heq.symm
    · have := habove c hc
      omega

/-- The front of a block can always be removed. -/
theorem RemoveRange.front_success (hremove : vmm.RemoveRange start size status t) (h : vmm.Compact)
    {b : VmmBlock} (hb : b ∈ vmm.list) (hstart : b.start = start) (hsize : 0 < size)
    (hle : size ≤ b.size) : status = .kSuccess := by
  cases hremove with
  | notFound hno => exact absurd ⟨hstart.le, by omega⟩ (hno b hb)
  | full pre post c hlist hlo hhi =>
      have hc := h.block_unique (c := c) hb (x := start) (by simp [hlist])
        ⟨hstart.le, by omega⟩ ⟨hlo.le, by omega⟩
      rw [← hc] at hlo
      omega
  | whole | middle | front | back => rfl

/-- `vmm_alloc` gives out the lowest run that is long enough, if there is one. -/
theorem Compact.alloc (h : vmm.Compact) (hsize : 0 < size) (vaddr : Nat) :
    (∃ t, vmm.vmmAlloc size vaddr = (.kSuccess, t) ∧
        IsLeast {x | Set.Ico x (x + size) ⊆ vmm.addresses} t.1 ∧
        t.1 + size < wordSize ∧ vmm.RemoveRange t.1 size .kSuccess t.2) ∨
      (vmm.vmmAlloc size vaddr = (.kOutOfResource, vaddr, vmm) ∧
        ∀ x, ¬ Set.Ico x (x + size) ⊆ vmm.addresses) := by
  obtain ⟨-, hno, hyes⟩ := vmm.search_spec fun block => size ≤ block.size
  unfold vmmAlloc
  generalize vmm.search (fun block => size ≤ block.size) = i at *
  have hrun (x : Nat) (hx : Set.Ico x (x + size) ⊆ vmm.addresses) :
      ∃ b ∈ vmm.list.drop i, b.start ≤ x ∧ x + size ≤ b.start + b.size := by
    obtain ⟨r, hr, hlo, hhi⟩ := h.separated.exists_of_subset (by omega) hx
    obtain ⟨b, hb, rfl⟩ := List.mem_map.mp hr
    simp only [VmmBlock.range] at hlo hhi
    rw [← List.take_append_drop i vmm.list] at hb
    rcases List.mem_append.mp hb with hb | hb
    · have := hno b hb
      simp only [decide_eq_false_iff_not] at this
      omega
    · exact ⟨b, hb, hlo, hhi⟩
  simp only
  split_ifs with hi
  · have hmem : vmm.blocks i ∈ vmm.list := by
      rw [list_split hi]
      simp
    have hroom : size ≤ (vmm.blocks i).size := by simpa using hyes hi
    have hwrap := h.noWrap _ hmem
    have hsub : Set.Ico (vmm.blocks i).start ((vmm.blocks i).start + size) ⊆ vmm.addresses :=
      Range.subset_cover (List.mem_map_of_mem hmem) (le_refl _) (by simp only [VmmBlock.range]; omega)
    have hremove := h.removeRange (show (vmm.blocks i).start + size < wordSize by omega)
    have hsuccess := hremove.front_success h hmem rfl hsize hroom
    rw [hsuccess] at hremove
    refine Or.inl ⟨_, rfl, ⟨hsub, fun x hx => ?_⟩, by simp only; omega, hremove⟩
    obtain ⟨b, hb, hlo, -⟩ := hrun x hx
    rw [drop_list hi] at hb
    obtain ⟨-, -, -, -, habove⟩ := h.split (list_split hi)
    rcases List.mem_cons.mp hb with rfl | hb
    · exact hlo
    · have := habove b hb
      simp only
      omega
  · refine Or.inr ⟨rfl, fun x hx => ?_⟩
    obtain ⟨b, hb, -⟩ := hrun x hx
    rw [List.drop_of_length_le (by rw [length_list]; exact not_lt.mp hi)] at hb
    exact absurd hb List.not_mem_nil

end Effect

end Vmm

end ClayFigure
