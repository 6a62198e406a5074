/-
# Sorted lists of separated ranges

A set of points kept as half-open ranges, in ascending order and with a gap between
neighbours. Because of the gaps a range whose points all belong to the set lies
inside one member of the list, so containment can be decided one member at a time.
-/

import Mathlib.Data.Set.Lattice
import Mathlib.Order.CompletePartialOrder
import Mathlib.Order.Interval.Set.Basic

namespace ClayFigure.Math

universe u

/-- The points from `lo` up to, but not including, `hi`. -/
structure Range (α : Type u) where
  lo : α
  hi : α
  deriving DecidableEq, Repr

variable {α : Type u} [LinearOrder α]

namespace Range

/-- The points of a list of ranges. -/
def cover (rs : List (Range α)) : Set α := {x | ∃ r ∈ rs, r.lo ≤ x ∧ x < r.hi}

/-- No range is empty, and each ends before the next begins. -/
structure Separated (rs : List (Range α)) : Prop where
  nonempty : ∀ r ∈ rs, r.lo < r.hi
  gaps : rs.Pairwise fun r r' => r.hi < r'.lo

theorem mem_cover {rs : List (Range α)} {x : α} :
    x ∈ cover rs ↔ ∃ r ∈ rs, r.lo ≤ x ∧ x < r.hi := Iff.rfl

@[simp]
theorem cover_nil : cover ([] : List (Range α)) = ∅ := by
  ext x
  simp [mem_cover]

theorem cover_cons (r : Range α) (rs : List (Range α)) :
    cover (r :: rs) = Set.Ico r.lo r.hi ∪ cover rs := by
  ext x
  simp [mem_cover, Set.mem_Ico]

theorem cover_append (rs rs' : List (Range α)) : cover (rs ++ rs') = cover rs ∪ cover rs' := by
  ext x
  simp [mem_cover, or_and_right, exists_or]

/-- The ranges `old` are replaced by `mid`, which has the points of `S` in addition. -/
theorem cover_grow {pre old mid post : List (Range α)} {S : Set α}
    (hmid : cover mid = cover old ∪ S) :
    cover (pre ++ (mid ++ post)) = cover (pre ++ (old ++ post)) ∪ S := by
  rw [cover_append, cover_append, cover_append, cover_append, hmid, Set.union_right_comm,
    Set.union_assoc (cover pre)]

namespace Separated

variable {rs pre mid post : List (Range α)} {r : Range α}

theorem nil : Separated ([] : List (Range α)) := ⟨by simp, .nil⟩

theorem sublist (h : Separated rs) {rs' : List (Range α)} (hsub : rs'.Sublist rs) :
    Separated rs' :=
  ⟨fun r hr => h.nonempty r (hsub.subset hr), h.gaps.sublist hsub⟩

/-- A range with a gap on either side. -/
theorem insert (hpre : Separated pre) (hpost : Separated post) (hr : r.lo < r.hi)
    (hbelow : ∀ a ∈ pre, a.hi < r.lo) (habove : ∀ b ∈ post, r.hi < b.lo) :
    Separated (pre ++ r :: post) := by
  refine ⟨?_, List.pairwise_append.mpr ⟨hpre.gaps, List.pairwise_cons.mpr ⟨habove, hpost.gaps⟩,
    ?_⟩⟩
  · intro a ha
    rcases List.mem_append.mp ha with ha | ha
    · exact hpre.nonempty a ha
    · rcases List.mem_cons.mp ha with rfl | ha
      · exact hr
      · exact hpost.nonempty a ha
  · intro a ha b hb
    rcases List.mem_cons.mp hb with rfl | hb
    · exact hbelow a ha
    · exact (hbelow a ha).trans (hr.trans (habove b hb))

/-- The ranges before and behind a member, as seen from the member. -/
theorem split (h : Separated (pre ++ r :: post)) :
    Separated pre ∧ Separated post ∧ r.lo < r.hi ∧ (∀ a ∈ pre, a.hi < r.lo) ∧
      ∀ b ∈ post, r.hi < b.lo := by
  obtain ⟨hpre, hrest, hcross⟩ := List.pairwise_append.mp h.gaps
  obtain ⟨hpost, hgaps⟩ := List.pairwise_cons.mp hrest
  exact ⟨h.sublist (List.sublist_append_left _ _),
    h.sublist ((List.sublist_cons_self _ _).trans (List.sublist_append_right _ _)),
    h.nonempty r (by simp), fun a ha => hcross a ha r (by simp), hpost⟩

/-- What ends before the last range begins is below the end of the last range. -/
theorem below_of_last (h : Separated (pre ++ [r])) {s : α} (hs : r.hi ≤ s) :
    ∀ a ∈ pre, a.hi < s := by
  obtain ⟨-, -, hr, hbelow, -⟩ := h.split
  exact fun a ha => ((hbelow a ha).trans hr).trans_le hs

/-- What begins behind the first range is above the start of the first range. -/
theorem above_of_first (h : Separated (r :: post)) {e : α} (he : e ≤ r.lo) :
    ∀ b ∈ post, e < b.lo := by
  obtain ⟨-, -, hr, -, habove⟩ := Separated.split (show Separated ([] ++ r :: post) from h)
  exact fun b hb => he.trans_lt (hr.trans (habove b hb))

/-- A member is cut down to at most two ranges inside of it. -/
theorem shrink (h : Separated (pre ++ r :: post)) (hmid : Separated mid)
    (hin : ∀ m ∈ mid, r.lo ≤ m.lo ∧ m.hi ≤ r.hi) : Separated (pre ++ (mid ++ post)) := by
  obtain ⟨hpre, hpost, hr, hbelow, habove⟩ := h.split
  refine ⟨?_, List.pairwise_append.mpr ⟨hpre.gaps, List.pairwise_append.mpr
    ⟨hmid.gaps, hpost.gaps, fun m hm b hb => (hin m hm).2.trans_lt (habove b hb)⟩, ?_⟩⟩
  · intro a ha
    rcases List.mem_append.mp ha with ha | ha
    · exact hpre.nonempty a ha
    · rcases List.mem_append.mp ha with ha | ha
      · exact hmid.nonempty a ha
      · exact hpost.nonempty a ha
  · intro a ha b hb
    rcases List.mem_append.mp hb with hb | hb
    · exact (hbelow a ha).trans_le (hin b hb).1
    · exact (hbelow a ha).trans (hr.trans (habove b hb))

/-- Points of one member are points of no other. -/
theorem notMem_cover (h : Separated (pre ++ r :: post)) {x : α} (hlo : r.lo ≤ x) (hhi : x < r.hi) :
    x ∉ cover (pre ++ post) := by
  obtain ⟨-, -, -, hbelow, habove⟩ := h.split
  rintro ⟨a, ha, halo, hahi⟩
  rcases List.mem_append.mp ha with ha | ha
  · exact absurd ((hahi.trans (hbelow a ha)).trans_le hlo) (lt_irrefl x)
  · exact absurd ((habove a ha).trans_le halo) (not_lt_of_gt hhi)

/-- Cutting `[s, e)` out of the member that contains it. -/
theorem cover_shrink (h : Separated (pre ++ r :: post)) {s e : α} (hs : r.lo ≤ s) (he : e ≤ r.hi)
    (hmid : cover mid = Set.Ico r.lo r.hi \ Set.Ico s e) :
    cover (pre ++ (mid ++ post)) = cover (pre ++ r :: post) \ Set.Ico s e := by
  have hout (x : α) (hx : x ∈ Set.Ico s e) : x ∉ cover pre ∪ cover post := by
    rw [← cover_append]
    exact h.notMem_cover (hs.trans hx.1) (hx.2.trans_le he)
  ext x
  have hx := hout x
  simp only [cover_append, cover_cons, hmid, Set.mem_union, Set.mem_sdiff] at hx ⊢
  tauto

/-- A range whose points all belong to the set lies inside one member. -/
theorem exists_of_subset (h : Separated rs) {s e : α} (hse : s < e)
    (hsub : Set.Ico s e ⊆ cover rs) : ∃ r ∈ rs, r.lo ≤ s ∧ e ≤ r.hi := by
  obtain ⟨r, hr, hlo, hhi⟩ := hsub ⟨le_refl s, hse⟩
  refine ⟨r, hr, hlo, ?_⟩
  by_contra hlt
  -- the end of the member would be a point of the range in no member
  obtain ⟨r', hr', hlo', hhi'⟩ := hsub ⟨hhi.le, not_le.mp hlt⟩
  obtain ⟨pre, post, rfl⟩ := List.append_of_mem hr
  obtain ⟨-, -, -, hbelow, habove⟩ := h.split
  rcases List.mem_append.mp hr' with hmem | hmem
  · exact absurd ((hhi'.trans (hbelow r' hmem)).trans_le hlo) (not_lt_of_gt hhi)
  · rcases List.mem_cons.mp hmem with rfl | hmem
    · exact lt_irrefl _ hhi'
    · exact absurd ((habove r' hmem).trans_le hlo') (lt_irrefl _)

/-- The set begins where the first range does. -/
theorem isLeast_lo (h : Separated (r :: post)) : IsLeast (cover (r :: post)) r.lo := by
  obtain ⟨-, -, hr, -, habove⟩ := Separated.split (show Separated ([] ++ r :: post) from h)
  refine ⟨⟨r, List.mem_cons_self, le_refl _, hr⟩, ?_⟩
  rintro x ⟨a, ha, hlo, -⟩
  rcases List.mem_cons.mp ha with rfl | ha
  · exact hlo
  · exact ((hr.trans (habove a ha)).trans_le hlo).le

/-- The first range ends at a point outside of the set. -/
theorem hi_notMem (h : Separated (r :: post)) : r.hi ∉ cover (r :: post) := by
  obtain ⟨-, -, -, -, habove⟩ := Separated.split (show Separated ([] ++ r :: post) from h)
  rintro ⟨a, ha, hlo, hhi⟩
  rcases List.mem_cons.mp ha with rfl | ha
  · exact lt_irrefl _ hhi
  · exact absurd (habove a ha) (not_lt_of_ge hlo)

/-- What is left of the set behind the first range. -/
theorem cover_tail (h : Separated (r :: post)) :
    cover post = cover (r :: post) \ Set.Ico r.lo r.hi := by
  ext x
  rw [cover_cons, Set.union_sdiff_left]
  refine ⟨fun hx => ⟨hx, fun hin => ?_⟩, And.left⟩
  exact Separated.notMem_cover (show Separated ([] ++ r :: post) from h) hin.1 hin.2 hx

/-- The set determines the list. -/
theorem eq_of_cover_eq {rs' : List (Range α)} (h : Separated rs) (h' : Separated rs')
    (heq : cover rs = cover rs') : rs = rs' := by
  induction rs generalizing rs' with
  | nil =>
      cases rs' with
      | nil => rfl
      | cons r' post' =>
          have hmem := h'.isLeast_lo.1
          rw [← heq, cover_nil] at hmem
          exact absurd hmem (Set.notMem_empty _)
  | cons r post ih =>
      cases rs' with
      | nil =>
          have hmem := h.isLeast_lo.1
          rw [heq, cover_nil] at hmem
          exact absurd hmem (Set.notMem_empty _)
      | cons r' post' =>
          have hlo : r.lo = r'.lo := h.isLeast_lo.unique (heq ▸ h'.isLeast_lo)
          have hhi : r.hi = r'.hi := by
            apply le_antisymm
            · refine not_lt.mp fun hlt => h'.hi_notMem ?_
              rw [← heq]
              refine ⟨r, List.mem_cons_self, ?_, hlt⟩
              exact hlo.trans_le (h'.nonempty r' List.mem_cons_self).le
            · refine not_lt.mp fun hlt => h.hi_notMem ?_
              rw [heq]
              refine ⟨r', List.mem_cons_self, ?_, hlt⟩
              exact hlo.symm.trans_le (h.nonempty r List.mem_cons_self).le
          have hpost : cover post = cover post' := by
            rw [h.cover_tail, h'.cover_tail, heq, hlo, hhi]
          have hr : r = r' := by
            cases r
            cases r'
            exact congrArg₂ Range.mk hlo hhi
          rw [hr, ih (h.sublist (List.sublist_cons_self _ _))
            (h'.sublist (List.sublist_cons_self _ _)) hpost]

end Separated

/-- A range inside one member belongs to the set. -/
theorem subset_cover {rs : List (Range α)} {r : Range α} (hr : r ∈ rs) {s e : α} (hs : r.lo ≤ s)
    (he : e ≤ r.hi) : Set.Ico s e ⊆ cover rs :=
  fun _ hx => ⟨r, hr, hs.trans hx.1, hx.2.trans_le he⟩

end Range

end ClayFigure.Math
