/-
# Waiting in a queue

Whoever joins a queue that is in the order of keys goes behind all members of the same key, so
only smaller keys get in front of a member. How long the member waits is then a matter of
counting: a measure that every turn of another pays for, and that only newcomers raise, bounds
the number of turns of a run.
-/

import Mathlib.Data.List.TakeWhile
import Mathlib.Order.Lattice
import ClayFigure.Math.Transition

namespace ClayFigure.Math

/-! ## Who is in front -/

section Queue

variable {α κ : Type*} [DecidableEq α] {p q x : α} {pre post xs ys zs : List α}

/-- The members of a queue in front of `p`. -/
def inFront (xs : List α) (p : α) : List α := xs.takeWhile (· ≠ p)

theorem inFront_cons_self (p : α) (xs : List α) : inFront (p :: xs) p = [] := by
  simp [inFront]

theorem inFront_cons_of_ne (hx : x ≠ p) (xs : List α) :
    inFront (x :: xs) p = x :: inFront xs p := by
  simp [inFront, hx]

theorem inFront_append_of_mem (hp : p ∈ pre) (post : List α) :
    inFront (pre ++ post) p = inFront pre p := by
  induction pre with
  | nil => exact absurd hp List.not_mem_nil
  | cons y pre ih =>
      by_cases hy : y = p
      · rw [hy, List.cons_append, inFront_cons_self, inFront_cons_self]
      · have hp := (List.mem_cons.mp hp).resolve_left fun heq => hy heq.symm
        rw [List.cons_append, inFront_cons_of_ne hy, inFront_cons_of_ne hy, ih hp]

theorem inFront_append_of_not_mem (hp : p ∉ pre) (post : List α) :
    inFront (pre ++ post) p = pre ++ inFront post p := by
  refine List.takeWhile_append_of_pos fun y hy => ?_
  rw [decide_eq_true_eq]
  exact fun heq => hp (heq ▸ hy)

theorem inFront_subset : inFront xs p ⊆ xs := (List.takeWhile_prefix _).subset

theorem not_mem_inFront_self : p ∉ inFront xs p := fun hp => by
  simpa using List.mem_takeWhile_imp hp

variable [LinearOrder κ] (key : α → κ)

/-- A member in front of another has no greater key. -/
theorem key_le_of_mem_inFront (hsorted : xs.Pairwise fun x y => key x ≤ key y) (hp : p ∈ xs)
    (hq : q ∈ inFront xs p) : key q ≤ key p := by
  induction xs with
  | nil => exact absurd hp List.not_mem_nil
  | cons y xs ih =>
      obtain ⟨hy, hsorted⟩ := List.pairwise_cons.mp hsorted
      by_cases heq : y = p
      · rw [heq, inFront_cons_self] at hq
        exact absurd hq List.not_mem_nil
      · have hmem := (List.mem_cons.mp hp).resolve_left fun h => heq h.symm
        rw [inFront_cons_of_ne heq, List.mem_cons] at hq
        rcases hq with rfl | hq
        · exact hy p hmem
        · exact ih hsorted hmem hq

variable {key}

/-- The queue has become longer, and only smaller keys have got in front of `p`. -/
structure Joins (key : α → κ) (p : α) (xs ys : List α) : Prop where
  subset : xs ⊆ ys
  inFront : ∀ q ∈ inFront ys p, q ∈ inFront xs p ∨ q ∉ xs ∧ key q < key p

theorem Joins.refl (p : α) (xs : List α) : Joins key p xs xs := ⟨fun _ h => h, fun _ => Or.inl⟩

theorem Joins.trans (h : Joins key p xs ys) (h' : Joins key p ys zs) : Joins key p xs zs where
  subset _ hq := h'.subset (h.subset hq)
  inFront q hq := by
    rcases h'.inFront q hq with hq | ⟨hnot, hlt⟩
    · exact h.inFront q hq
    · exact Or.inr ⟨fun hmem => hnot (h.subset hmem), hlt⟩

/-- A newcomer goes behind all members of its key. -/
theorem Joins.insert (hx : x ∉ pre ++ post) (hp : p ∈ pre ++ post)
    (hpost : ∀ y ∈ post, key x < key y) : Joins key p (pre ++ post) (pre ++ x :: post) where
  subset y hy := by
    rw [List.mem_append] at hy ⊢
    exact hy.imp_right (List.mem_cons_of_mem x)
  inFront q hq := by
    by_cases hpre : p ∈ pre
    · rw [inFront_append_of_mem hpre] at hq ⊢
      exact Or.inl hq
    · have hmem : p ∈ post := (List.mem_append.mp hp).resolve_left hpre
      have hne : x ≠ p := by
        rintro rfl
        exact hx hp
      rw [inFront_append_of_not_mem hpre, inFront_cons_of_ne hne, List.mem_append,
        List.mem_cons] at hq
      rw [inFront_append_of_not_mem hpre, List.mem_append]
      rcases hq with hq | rfl | hq
      · exact Or.inl (Or.inl hq)
      · exact Or.inr ⟨hx, hpost p hmem⟩
      · exact Or.inl (Or.inr hq)

end Queue

/-! ## Counting along a run -/

namespace System

variable {σ α γ : Type*} {S : System σ α}

/-- The run from one state to another that takes the listed steps, each with the state it
starts from. -/
inductive Trace (S : System σ α) : List (σ × α) → σ → σ → Prop
  | nil (s : σ) : Trace S [] s s
  | cons {s t u : σ} {a : α} {es : List (σ × α)} (hstep : S.step s a t) (hrest : Trace S es t u) :
      Trace S ((s, a) :: es) s u

/-- Every step of a kind that costs is paid out of the measure, which only the steps of another
kind raise. The measure may look at a part `g` of the state that the invariant finds anew after
every step. -/
theorem Trace.measure_le (I : σ → γ → Prop) (P : σ → Prop) (measure : σ → γ → Nat)
    (costs raises : σ × α → Bool)
    (hstep : ∀ s g a t, I s g → P s → P t → S.step s a t →
      ∃ g', I t g' ∧ measure t g' + (costs (s, a)).toNat ≤ measure s g + (raises (s, a)).toNat)
    {es : List (σ × α)} {s t : σ} (htrace : S.Trace es s t) (hes : ∀ e ∈ es, P e.1) (ht : P t)
    {g : γ} (hg : I s g) :
    ∃ g', I t g' ∧ measure t g' + es.countP costs ≤ measure s g + es.countP raises := by
  induction htrace generalizing g with
  | nil => exact ⟨g, hg, le_rfl⟩
  | @cons s t u a es hnext hrest ih =>
      obtain ⟨hs, hes⟩ := List.forall_mem_cons.mp hes
      have hmid : P t := by
        cases hrest with
        | nil => exact ht
        | cons => exact hes _ List.mem_cons_self
      obtain ⟨g', hg', hle⟩ := hstep s g a t hg hs hmid hnext
      obtain ⟨g'', hg'', hle'⟩ := ih hes ht hg'
      refine ⟨g'', hg'', ?_⟩
      have hcosts : (((s, a) :: es).countP costs) = es.countP costs + (costs (s, a)).toNat := by
        cases hcost : costs (s, a) <;> simp [hcost]
      have hraises : (((s, a) :: es).countP raises) = es.countP raises + (raises (s, a)).toNat := by
        cases hraise : raises (s, a) <;> simp [hraise]
      omega

end System

end ClayFigure.Math
