/-
# Unions of listed finite sets

The size of a union is at most the sum of the sizes, and equal to it exactly when
the sets are pairwise disjoint. The version below also cuts the union down to a
window, and then every set has to lie inside the window as well.
-/

import Mathlib.Algebra.BigOperators.Group.List.Basic
import Mathlib.Algebra.GroupWithZero.Nat
import Mathlib.Data.Finset.Card

namespace ClayFigure.Math

universe u

variable {α : Type u} [DecidableEq α]

/-- The union of the listed sets. -/
def listUnion (fs : List (Finset α)) : Finset α := fs.foldr (· ∪ ·) ∅

@[simp]
theorem listUnion_nil : listUnion ([] : List (Finset α)) = ∅ := rfl

@[simp]
theorem listUnion_cons (f : Finset α) (fs : List (Finset α)) :
    listUnion (f :: fs) = f ∪ listUnion fs := rfl

theorem mem_listUnion {fs : List (Finset α)} {x : α} :
    x ∈ listUnion fs ↔ ∃ f ∈ fs, x ∈ f := by
  induction fs with
  | nil => simp
  | cons f fs ih => simp [ih]

theorem disjoint_listUnion {f : Finset α} {fs : List (Finset α)} :
    Disjoint f (listUnion fs) ↔ ∀ g ∈ fs, Disjoint f g := by
  induction fs with
  | nil => simp
  | cons g fs ih => simp [Finset.disjoint_union_right, ih]

theorem card_listUnion_inter_le (fs : List (Finset α)) (s : Finset α) :
    (listUnion fs ∩ s).card ≤ (fs.map Finset.card).sum := by
  induction fs with
  | nil => simp
  | cons f fs ih =>
      have hunion := Finset.card_union_le (f ∩ s) (listUnion fs ∩ s)
      have hinter := Finset.card_le_card (Finset.inter_subset_left : f ∩ s ⊆ f)
      rw [listUnion_cons, Finset.union_inter_distrib_right, List.map_cons, List.sum_cons]
      omega

/-- The window counts every element of every set exactly when the sets are
pairwise disjoint and lie inside the window. -/
theorem card_listUnion_inter_eq_iff (fs : List (Finset α)) (s : Finset α) :
    (listUnion fs ∩ s).card = (fs.map Finset.card).sum ↔
      fs.Pairwise Disjoint ∧ ∀ f ∈ fs, f ⊆ s := by
  induction fs with
  | nil => simp
  | cons f fs ih =>
      have hsplit := Finset.card_union_add_card_inter (f ∩ s) (listUnion fs ∩ s)
      have hinter := Finset.card_le_card (Finset.inter_subset_left : f ∩ s ⊆ f)
      have hle := card_listUnion_inter_le fs s
      rw [listUnion_cons, Finset.union_inter_distrib_right, List.map_cons, List.sum_cons,
        List.pairwise_cons, List.forall_mem_cons]
      constructor
      · intro heq
        have hf : (f ∩ s).card = f.card := by omega
        have hfs : f ⊆ s :=
          Finset.inter_eq_left.mp (Finset.eq_of_subset_of_card_le Finset.inter_subset_left hf.ge)
        obtain ⟨hpair, hsub⟩ := ih.mp (by omega)
        have hempty : f ∩ s ∩ (listUnion fs ∩ s) = ∅ :=
          Finset.card_eq_zero.mp (by omega)
        refine ⟨⟨disjoint_listUnion.mp (Finset.disjoint_left.mpr fun x hx hx' => ?_), hpair⟩,
          hfs, hsub⟩
        have hmem : x ∈ f ∩ s ∩ (listUnion fs ∩ s) := by
          simp only [Finset.mem_inter]
          exact ⟨⟨hx, hfs hx⟩, hx', hfs hx⟩
        simp [hempty] at hmem
      · rintro ⟨⟨hdisjoint, hpair⟩, hfs, hsub⟩
        have hrest := ih.mpr ⟨hpair, hsub⟩
        have hall := disjoint_listUnion.mpr hdisjoint
        have hcut : Disjoint (f ∩ s) (listUnion fs ∩ s) :=
          hall.mono Finset.inter_subset_left Finset.inter_subset_left
        rw [Finset.card_union_of_disjoint hcut, hrest, Finset.inter_eq_left.mpr hfs]

/-- Pairwise disjoint sets have as many elements together as one by one. -/
theorem card_listUnion {fs : List (Finset α)} (hpair : fs.Pairwise Disjoint) :
    (listUnion fs).card = (fs.map Finset.card).sum := by
  have hself := (card_listUnion_inter_eq_iff fs (listUnion fs)).mpr
    ⟨hpair, fun f hf x hx => mem_listUnion.mpr ⟨f, hf, hx⟩⟩
  rwa [Finset.inter_self] at hself

end ClayFigure.Math
