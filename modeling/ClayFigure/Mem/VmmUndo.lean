/-
# Undoing a change of a range table

Putting back what an allocation took restores the very array, even when the table was
full, because the cell or the gap it left is still there. Taking out what was added
restores the blocks in use, because a compact table is determined by its addresses.
-/

import ClayFigure.Mem.VmmRanges

namespace ClayFigure

open ClayFigure.Math

namespace Vmm

variable {vmm t : Vmm} {start size : Nat}

/-! ## Putting back what an allocation took -/

/-- A search that is known to stop at `i`. -/
theorem search_eq {p : VmmBlock → Bool} {i : Nat} (hi : i ≤ vmm.usingBlocks)
    (hno : ∀ j < i, p (vmm.blocks j) = false)
    (hyes : i < vmm.usingBlocks → p (vmm.blocks i) = true) : vmm.search p = i := by
  obtain ⟨-, hle, hbelow, hat⟩ := searchFrom_spec p vmm.blocks vmm.usingBlocks 0
  change vmm.search p ≤ 0 + vmm.usingBlocks at hle
  rw [Nat.zero_add] at hle hat
  apply le_antisymm
  · refine not_lt.mp fun hlt => ?_
    have hfalse := hbelow i (Nat.zero_le i) hlt
    rw [hyes (hlt.trans_le hle)] at hfalse
    cases hfalse
  · refine not_lt.mp fun hlt => ?_
    have htrue : p (vmm.blocks (vmm.search p)) = true := hat (hlt.trans_le hi)
    rw [hno _ hlt] at htrue
    cases htrue

/-- The cells in use are in order. -/
theorem Compact.cells_lt (h : vmm.Compact) {i j : Nat} (hij : i < j) (hj : j < vmm.usingBlocks) :
    (vmm.blocks i).start + (vmm.blocks i).size < (vmm.blocks j).start := by
  obtain ⟨-, -, -, hbelow, -⟩ := h.split (list_split hj)
  apply hbelow
  rw [List.mem_take_iff_getElem]
  exact ⟨i, by rw [length_list]; omega, by simp [list]⟩

/-- Only the cell before a block could touch it from below, and it does not. -/
theorem Compact.not_join (h : vmm.Compact) {i : Nat} (hi : i < vmm.usingBlocks) :
    ¬ (0 < i ∧ add64 (vmm.blocks (i - 1)).start (vmm.blocks (i - 1)).size =
      (vmm.blocks i).start) := by
  rintro ⟨hpos, heq⟩
  have hlt := h.cells_lt (show i - 1 < i by omega) hi
  rw [add64_of_lt (h.noWrap _ (mem_list (by omega)))] at heq
  omega

/-- A whole block was taken: the cells moved forward are moved back. -/
theorem Compact.addRange_whole (h : vmm.Compact) {i : Nat} (hi : i < vmm.usingBlocks) :
    ({ vmm with usingBlocks := vmm.usingBlocks - 1 }.moveForward i).vmmAddRange
      (vmm.blocks i).start (vmm.blocks i).size = (.kSuccess, vmm) := by
  have hcell (j : Nat) : ({ vmm with usingBlocks := vmm.usingBlocks - 1 }.moveForward i).blocks j =
      if i ≤ j ∧ j + 1 < vmm.usingBlocks then vmm.blocks (j + 1) else vmm.blocks j := by
    simp only [moveForward, moveForwardFrom_apply]
    congr 1
    simp only [eq_iff_iff]
    omega
  generalize ht : { vmm with usingBlocks := vmm.usingBlocks - 1 }.moveForward i = t at hcell
  have husing : t.usingBlocks = vmm.usingBlocks - 1 := by rw [← ht, moveForward]
  have htotal : t.totalBlocks = vmm.totalBlocks := by rw [← ht, moveForward]
  have hbelow (j : Nat) (hj : j < i) : t.blocks j = vmm.blocks j := by
    rw [hcell, if_neg (by omega)]
  have hbehind (hlt : i < t.usingBlocks) : t.blocks i = vmm.blocks (i + 1) := by
    rw [hcell, if_pos (by omega)]
  have hwrap := h.noWrap _ (mem_list hi)
  have hsearch : (t.search fun block => (vmm.blocks i).start < block.start) = i := by
    apply search_eq (by omega)
    · intro j hj
      have := h.cells_lt hj hi
      rw [hbelow j hj]
      simp only [decide_eq_false_iff_not, not_lt]
      omega
    · intro hlt
      have := h.cells_lt (show i < i + 1 by omega) (show i + 1 < vmm.usingBlocks by omega)
      rw [hbehind hlt]
      simp only [decide_eq_true_eq]
      omega
  have hbefore : ¬ (0 < i ∧ add64 (t.blocks (i - 1)).start (t.blocks (i - 1)).size =
      (vmm.blocks i).start) := by
    intro hjoin
    rw [hbelow _ (by omega)] at hjoin
    exact h.not_join hi hjoin
  have hapart : ¬ (i < t.usingBlocks ∧ add64 (vmm.blocks i).start (vmm.blocks i).size =
      (t.blocks i).start) := by
    rintro ⟨hlt, heq⟩
    have := h.cells_lt (show i < i + 1 by omega) (show i + 1 < vmm.usingBlocks by omega)
    rw [hbehind hlt, add64_of_lt hwrap] at heq
    omega
  have hroom : t.usingBlocks < t.totalBlocks := by
    have := h.fits
    omega
  simp only [vmmAddRange, hsearch]
  rw [if_neg hbefore, if_neg hapart, if_pos hroom]
  refine Prod.ext rfl ?_
  cases vmm with
  | mk blocks totalBlocks usingBlocks =>
      simp only at hcell husing htotal hi
      simp only [setBlock, moveBackward, Vmm.mk.injEq]
      refine ⟨funext fun j => ?_, htotal, by omega⟩
      by_cases hj : j = i
      · rw [hj, Function.update_self]
      · rw [Function.update_of_ne hj, moveBackwardFrom_apply, hcell, hcell]
        clear hsearch hbefore hapart hbelow hbehind ht
        grind

/-- The front of a block was taken: the block is extended again. -/
theorem Compact.addRange_front (h : vmm.Compact) {i : Nat} (hi : i < vmm.usingBlocks)
    (hsize : 0 < size) (hlt : size < (vmm.blocks i).size) :
    (vmm.setBlock i ⟨(vmm.blocks i).start + size, (vmm.blocks i).size - size⟩).vmmAddRange
      (vmm.blocks i).start size = (.kSuccess, vmm) := by
  generalize hb : (⟨(vmm.blocks i).start + size, (vmm.blocks i).size - size⟩ : VmmBlock) = b
  have hself : (vmm.setBlock i b).blocks i = b := Function.update_self ..
  have hother (j : Nat) (hj : j ≠ i) : (vmm.setBlock i b).blocks j = vmm.blocks j :=
    Function.update_of_ne hj ..
  have hwrap := h.noWrap _ (mem_list hi)
  have hsearch : ((vmm.setBlock i b).search fun block => (vmm.blocks i).start < block.start) =
      i := by
    apply search_eq (show i ≤ (vmm.setBlock i b).usingBlocks from hi.le)
    · intro j hj
      have := h.cells_lt hj hi
      rw [hother j (Nat.ne_of_lt hj)]
      simp only [decide_eq_false_iff_not, not_lt]
      omega
    · intro _
      rw [hself, ← hb]
      simp only [decide_eq_true_eq]
      omega
  have hbefore : ¬ (0 < i ∧ add64 ((vmm.setBlock i b).blocks (i - 1)).start
      ((vmm.setBlock i b).blocks (i - 1)).size = (vmm.blocks i).start) := by
    intro hjoin
    rw [hother _ (by omega)] at hjoin
    exact h.not_join hi hjoin
  have htouch : i < (vmm.setBlock i b).usingBlocks ∧
      add64 (vmm.blocks i).start size = ((vmm.setBlock i b).blocks i).start := by
    refine ⟨hi, ?_⟩
    rw [hself, ← hb]
    exact add64_of_lt (by omega)
  simp only [vmmAddRange, hsearch]
  rw [if_neg hbefore, if_pos htouch, hself, setBlock_setBlock]
  have hback : add64 b.size size = (vmm.blocks i).size := by
    rw [← hb, add64_of_lt (by simp only; omega)]
    simp only
    omega
  rw [hback]
  exact Prod.ext rfl (by simp [setBlock])

/-- `vmm_alloc` cuts the front off the first block that is large enough. -/
theorem Compact.vmmAlloc_first (h : vmm.Compact) (hsize : 0 < size) {vaddr : Nat}
    (halloc : vmm.vmmAlloc size vaddr = (.kSuccess, start, t)) :
    ∃ i, i < vmm.usingBlocks ∧ (∀ b ∈ vmm.list.take i, b.size < size) ∧
      size ≤ (vmm.blocks i).size ∧ start = (vmm.blocks i).start ∧
      t = if size = (vmm.blocks i).size then
          { vmm with usingBlocks := vmm.usingBlocks - 1 }.moveForward i
        else vmm.setBlock i ⟨(vmm.blocks i).start + size, (vmm.blocks i).size - size⟩ := by
  obtain ⟨-, hno, hyes⟩ := vmm.search_spec fun block => size ≤ block.size
  unfold vmmAlloc at halloc
  generalize vmm.search (fun block => size ≤ block.size) = i at *
  simp only at halloc
  split at halloc
  · next hi =>
      have hroom : size ≤ (vmm.blocks i).size := by simpa using hyes hi
      have hwrap := h.noWrap _ (mem_list hi)
      have hends (j : Nat) (hj : j < vmm.usingBlocks) :
          add64 (vmm.blocks j).start (vmm.blocks j).size =
            (vmm.blocks j).start + (vmm.blocks j).size :=
        add64_of_lt (h.noWrap _ (mem_list hj))
      have hstop : add64 (vmm.blocks i).start size = (vmm.blocks i).start + size :=
        add64_of_lt (by omega)
      have hsearch : (vmm.search fun block => block.start ≤ (vmm.blocks i).start ∧
          (vmm.blocks i).start + size ≤ add64 block.start block.size) = i := by
        apply search_eq hi.le
        · intro j hj
          have := h.cells_lt hj hi
          rw [hends j (by omega)]
          simp only [decide_eq_false_iff_not, not_and]
          omega
        · intro _
          rw [hends i hi]
          simp only [decide_eq_true_eq]
          omega
      simp only [Prod.mk.injEq, true_and] at halloc
      obtain ⟨hstart, ht⟩ := halloc
      refine ⟨i, hi, fun b hb => by simpa using hno b hb, hroom, hstart.symm, ?_⟩
      rw [← ht]
      simp only [vmmRemoveRange, hstop, hsearch, hends i hi]
      rw [if_neg (by omega)]
      split
      · next hwhole => rw [if_pos (by omega)]
      · next hpart =>
          have hback : (vmm.blocks i).start + (vmm.blocks i).size -
              ((vmm.blocks i).start + size) = (vmm.blocks i).size - size := by omega
          have hne : size ≠ (vmm.blocks i).size := fun heq => hpart ⟨trivial, by rw [heq]⟩
          rw [if_neg fun hmiddle => lt_irrefl _ hmiddle.1, if_pos trivial, if_neg hne,
            sub64_of_le (by omega) hwrap, hback]
  · cases halloc

/-- Adding back what an allocation took succeeds and restores the table, cell by cell. -/
theorem Compact.alloc_addRange (h : vmm.Compact) (hsize : 0 < size) {vaddr : Nat}
    (halloc : vmm.vmmAlloc size vaddr = (.kSuccess, start, t)) :
    t.vmmAddRange start size = (.kSuccess, vmm) := by
  obtain ⟨i, hi, -, hroom, rfl, rfl⟩ := h.vmmAlloc_first hsize halloc
  split
  · next heq =>
      rw [heq]
      exact h.addRange_whole hi
  · next hne => exact h.addRange_front hi hsize (by omega)

/-! ## Taking out what was added -/

/-- A compact table is determined by its addresses. -/
theorem Compact.list_eq (h : vmm.Compact) (h' : t.Compact) (heq : vmm.addresses = t.addresses) :
    vmm.list = t.list := by
  apply List.map_injective_iff.mpr _ (h.separated.eq_of_cover_eq h'.separated heq)
  rintro ⟨start, size⟩ ⟨start', size'⟩ hrange
  simp only [VmmBlock.range, Range.mk.injEq] at hrange
  obtain ⟨rfl, hsize⟩ := hrange
  rw [Nat.add_left_cancel hsize]

/-- When a range can be removed: its block need not be split, or there is a cell for it. -/
theorem RemoveRange.success_iff {status : Status} (hremove : vmm.RemoveRange start size status t)
    (h : vmm.Compact) (hsize : 0 < size)
    (hsub : Set.Ico start (start + size) ⊆ vmm.addresses) :
    status = .kSuccess ↔ ¬ (vmm.totalBlocks ≤ vmm.usingBlocks ∧
      ∃ b ∈ vmm.list, b.start < start ∧ start + size < b.start + b.size) := by
  have hout {b c : VmmBlock} (hb : b ∈ vmm.list) (hlo : b.start ≤ start)
      (hhi : start + size ≤ b.start + b.size) (hc : c ∈ vmm.list) (hlo' : c.start < start)
      (hhi' : start + size < c.start + c.size) : b = c :=
    h.block_unique hb hc (x := start) ⟨hlo, by omega⟩ ⟨hlo'.le, by omega⟩
  cases hremove with
  | notFound hno =>
      obtain ⟨r, hr, hlo, hhi⟩ := h.separated.exists_of_subset (by omega) hsub
      obtain ⟨b, hb, rfl⟩ := List.mem_map.mp hr
      exact absurd ⟨hlo, hhi⟩ (hno b hb)
  | whole pre post b hlist hb ht hin =>
      subst hb
      refine iff_of_true rfl fun hfull => ?_
      obtain ⟨-, c, hc, hlo, hhi⟩ := hfull
      have heq := hout (b := ⟨start, size⟩) (by simp [hlist]) le_rfl le_rfl hc hlo hhi
      rw [← heq] at hlo
      exact lt_irrefl _ hlo
  | middle pre post b hlist hlo hhi hroom ht hin =>
      exact iff_of_true rfl fun hfull => absurd hroom (not_lt.mpr hfull.1)
  | full pre post b hlist hlo hhi hfull =>
      exact iff_of_false nofun (not_not.mpr ⟨hfull, b, by simp [hlist], hlo, hhi⟩)
  | front pre post b hlist hlo hhi ht hin =>
      refine iff_of_true rfl fun hfull => ?_
      obtain ⟨-, c, hc, hlo', hhi'⟩ := hfull
      have heq := hout (b := b) (by simp [hlist]) hlo.le hhi.le hc hlo' hhi'
      rw [← heq] at hlo'
      omega
  | back pre post b hlist hlo hhi ht hin =>
      refine iff_of_true rfl fun hfull => ?_
      obtain ⟨-, c, hc, hlo', hhi'⟩ := hfull
      have heq := hout (b := b) (by simp [hlist]) hlo.le hhi.le hc hlo' hhi'
      rw [← heq] at hhi'
      omega

/-- When a range can be added: it touches a block, or there is a cell for it. -/
theorem AddRange.success_iff {status : Status} (hadd : vmm.AddRange start size status t) :
    status = .kSuccess ↔ ¬ (vmm.totalBlocks ≤ vmm.usingBlocks ∧
      ∀ b ∈ vmm.list, b.start + b.size ≠ start ∧ start + size ≠ b.start) := by
  cases hadd with
  | joinBoth pre post b c hlist hb hc ht hin =>
      exact iff_of_true rfl fun hfull => (hfull.2 b (by simp [hlist])).1 hb
  | joinBefore pre post b hlist hb hpost ht hin =>
      exact iff_of_true rfl fun hfull => (hfull.2 b (by simp [hlist])).1 hb
  | joinBehind pre post c hlist hc hpre ht hin =>
      exact iff_of_true rfl fun hfull => (hfull.2 c (by simp [hlist])).2 hc
  | new pre post hlist hpre hpost hroom ht hin =>
      exact iff_of_true rfl fun hfull => absurd hroom (not_lt.mpr hfull.1)
  | full pre post hlist hpre hpost hfull =>
      refine iff_of_false nofun (not_not.mpr ⟨hfull, fun b hb => ?_⟩)
      rw [hlist] at hb
      rcases List.mem_append.mp hb with hb | hb
      · have := hpre b hb
        omega
      · have := hpost b hb
        omega

/-- A range that was just added lies in the middle of a block only when it closed a gap,
which freed a cell. -/
theorem AddRange.not_middle (hadd : vmm.AddRange start size .kSuccess t) (h : vmm.Compact)
    (ht : t.Compact) (hsize : 0 < size) : ¬ (t.totalBlocks ≤ t.usingBlocks ∧
      ∃ b ∈ t.list, b.start < start ∧ start + size < b.start + b.size) := by
  rintro ⟨hfull, b, hb, hlo, hhi⟩
  have hsame {c : VmmBlock} (hc : c ∈ t.list) (hclo : c.start ≤ start)
      (hchi : start < c.start + c.size) : b = c :=
    ht.block_unique hb hc ⟨hlo.le, by omega⟩ ⟨hclo, hchi⟩
  cases hadd with
  | joinBoth pre post c d hlist hc hd hcells hin =>
      have hlen := h.length_le hlist
      have hlen' := length_list t
      rw [hcells] at hlen'
      simp only [List.length_append, List.length_cons] at hlen hlen'
      rw [hin.1] at hfull
      omega
  | joinBefore pre post c hlist hc hpost hcells hin =>
      have heq := hsame (c := ⟨c.start, c.size + size⟩) (by simp [hcells]) (by simp only; omega)
        (by simp only; omega)
      rw [heq] at hhi
      simp only at hhi
      omega
  | joinBehind pre post c hlist hc hpre hcells hin =>
      have heq := hsame (c := ⟨start, c.size + size⟩) (by simp [hcells]) le_rfl
        (by simp only; omega)
      rw [heq] at hlo
      exact lt_irrefl _ hlo
  | new pre post hlist hpre hpost hroom hcells hin =>
      have heq := hsame (c := ⟨start, size⟩) (by simp [hcells]) le_rfl (by simp only; omega)
      rw [heq] at hlo
      exact lt_irrefl _ hlo

/-- Removing what was just added succeeds and restores the blocks in use. -/
theorem Compact.addRange_removeRange (h : vmm.Compact) (hsize : 0 < size)
    (hwrap : start + size < wordSize)
    (hdisjoint : Disjoint (Set.Ico start (start + size)) vmm.addresses)
    (hadd : vmm.vmmAddRange start size = (.kSuccess, t)) :
    (t.vmmRemoveRange start size).1 = .kSuccess ∧
      (t.vmmRemoveRange start size).2.list = vmm.list := by
  have hadded := h.addRange hsize hwrap hdisjoint
  rw [hadd] at hadded
  have ht := hadded.compact h hsize hwrap
  obtain ⟨-, haddresses⟩ | ⟨hne, -⟩ := hadded.addresses
  · have hsub : Set.Ico start (start + size) ⊆ t.addresses := by
      rw [haddresses]
      exact Set.subset_union_right
    have hremove := ht.removeRange hwrap
    have hsuccess := (hremove.success_iff ht hsize hsub).mpr (hadded.not_middle h ht hsize)
    refine ⟨hsuccess, ?_⟩
    obtain ⟨hcompact, ⟨-, -, hback⟩ | ⟨hstatus, -⟩ | ⟨hstatus, -⟩⟩ := hremove.addresses ht hsize
    · apply hcompact.list_eq h
      rw [hback, haddresses, Set.union_sdiff_right]
      exact hdisjoint.symm.sdiff_eq_left
    · rw [hsuccess] at hstatus
      cases hstatus
    · rw [hsuccess] at hstatus
      cases hstatus
  · exact absurd rfl hne

end Vmm

end ClayFigure
