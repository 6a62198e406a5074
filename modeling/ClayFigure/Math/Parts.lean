/-
# Parts of what is held

Several parties hold resources in common, each its own part. A party acts on its part only: it
gives some of it up, and what it comes by was not held before. No two parts then ever meet, and
nothing is held that is in no part.
-/

import Mathlib.Data.Set.Lattice
import Mathlib.Logic.Function.Basic
import Mathlib.Order.CompletePartialOrder

namespace ClayFigure.Math

universe u v

variable {ι : Type u} {ρ : Type v} {held held' held'' part part' part'' rest : Set ρ}
  {parts : ι → Set ρ}

/-- What is held is made up of parts that do not meet. -/
structure Parts (held : Set ρ) (parts : ι → Set ρ) : Prop where
  apart : ∀ i j, i ≠ j → Disjoint (parts i) (parts j)
  covered : held = ⋃ i, parts i

/-- A part is exchanged for another, and what is new in it was not held. -/
structure Exchange (held held' part part' : Set ρ) : Prop where
  after : held' = held \ part ∪ part'
  fresh : Disjoint ( part' \ part) held

namespace Exchange

theorem refl (h : part ⊆ held) : Exchange held held part part :=
  ⟨(Set.sdiff_union_of_subset h).symm, by rw [Set.sdiff_self]; exact Set.empty_disjoint _⟩

/-- What is outside of the part is not touched. -/
theorem apart (h : Exchange held held' part part') : Disjoint (held \ part) part' := by
  rw [Set.disjoint_left]
  rintro r ⟨hr, hnot⟩ hpart'
  exact Set.disjoint_left.mp h.fresh ⟨hpart', hnot⟩ hr

theorem mem_of_not_mem (h : Exchange held held' part part') {r : ρ} (hr : r ∈ held)
    (hnot : r ∉ part) : r ∈ held' := by
  rw [h.after]
  exact Or.inl ⟨hr, hnot⟩

theorem trans (h : Exchange held held' part part') (h' : Exchange held' held'' part' part'') :
    Exchange held held'' part part'' := by
  constructor
  · rw [h'.after, h.after, Set.union_sdiff_right, sdiff_eq_left.mpr h.apart]
  · rw [Set.disjoint_left]
    rintro r ⟨hr, hnot⟩ hheld
    by_cases hpart' : r ∈ part'
    · exact Set.disjoint_left.mp h.fresh ⟨hpart', hnot⟩ hheld
    · exact Set.disjoint_left.mp h'.fresh ⟨hr, hpart'⟩ (h.mem_of_not_mem hheld hnot)

/-- More that is held may be counted in, as it stays. -/
theorem frame (h : Exchange held held' part part') (hrest : rest ⊆ held)
    (hapart : Disjoint rest part) : Exchange held held' (part ∪ rest) (part' ∪ rest) := by
  constructor
  · rw [h.after]
    ext r
    have hin : r ∈ rest → r ∈ held := fun hr => hrest hr
    have hout : r ∈ rest → r ∉ part := fun hr => Set.disjoint_left.mp hapart hr
    simp only [Set.mem_union, Set.mem_sdiff]
    tauto
  · refine h.fresh.mono_left ?_
    rintro r ⟨hr | hr, hnot⟩
    · exact ⟨hr, fun hpart => hnot (Or.inl hpart)⟩
    · exact absurd (Or.inr hr) hnot

end Exchange

/-- A party exchanges its part. -/
theorem Parts.exchange [DecidableEq ι] (h : Parts held parts) (i : ι)
    (hex : Exchange held held' (parts i) part') :
    Parts held' (Function.update parts i part') := by
  have hout {j : ι} (hj : j ≠ i) : Disjoint (parts j) part' := by
    have hsub : parts j ⊆ held \ parts i := by
      intro r hr
      refine ⟨?_, Set.disjoint_left.mp (h.apart j i hj) hr⟩
      rw [h.covered]
      exact Set.mem_iUnion_of_mem j hr
    exact hex.apart.mono_left hsub
  constructor
  · intro j k hne
    by_cases hj : j = i
    · have hk : k ≠ i := fun hk => hne (hj.trans hk.symm)
      rw [hj, Function.update_self, Function.update_of_ne hk]
      exact (hout hk).symm
    · rw [Function.update_of_ne hj]
      by_cases hk : k = i
      · rw [hk, Function.update_self]
        exact hout hj
      · rw [Function.update_of_ne hk]
        exact h.apart j k hne
  · rw [hex.after]
    ext r
    rw [Set.mem_union, Set.mem_sdiff, Set.mem_iUnion]
    constructor
    · rintro (⟨hr, hnot⟩ | hr)
      · rw [h.covered, Set.mem_iUnion] at hr
        obtain ⟨j, hj⟩ := hr
        have hne : j ≠ i := fun heq => hnot (heq ▸ hj)
        exact ⟨j, by rwa [Function.update_of_ne hne]⟩
      · exact ⟨i, by rwa [Function.update_self]⟩
    · rintro ⟨j, hj⟩
      by_cases hne : j = i
      · rw [hne, Function.update_self] at hj
        exact Or.inr hj
      · rw [Function.update_of_ne hne] at hj
        refine Or.inl ⟨h.covered ▸ Set.mem_iUnion_of_mem j hj, fun hi => ?_⟩
        exact Set.disjoint_left.mp (h.apart j i hne) hj hi

end ClayFigure.Math
