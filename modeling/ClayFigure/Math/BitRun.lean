/-
# Runs of consecutive positions

A run is a block of consecutive natural numbers that all satisfy a predicate.
First-fit search over any such predicate is justified here: a position that
fails the predicate rules out every run that would contain it, so a searcher
may jump past it, and the run it finds is the lowest one.
-/

import Mathlib.Data.Finset.Card
import Mathlib.Order.Interval.Finset.Nat

namespace ClayFigure.Math

variable {p : Nat → Prop}

/-- The `n` positions from `start` on all satisfy `p`. -/
def Run (p : Nat → Prop) (start n : Nat) : Prop :=
  ∀ i, start ≤ i → i < start + n → p i

/-- `start` is the lowest position at which a run of length `n` begins. -/
structure IsFirstRun (p : Nat → Prop) (n start : Nat) : Prop where
  run : Run p start n
  lowest : ∀ s, s < start → ¬ Run p s n

namespace Run

@[simp]
theorem zero (start : Nat) : Run p start 0 := by
  intro i hle hlt
  omega

/-- One more position extends a run at its upper end. -/
theorem succ {start n : Nat} (hrun : Run p start n) (hnext : p (start + n)) :
    Run p start (n + 1) := by
  intro i hle hlt
  by_cases hi : i = start + n
  · exact hi ▸ hnext
  · exact hrun i hle (by omega)

/-- A failing position lies in no run. -/
theorem not_of_mem {start n j : Nat} (hj : ¬ p j) (hle : start ≤ j)
    (hlt : j < start + n) : ¬ Run p start n :=
  fun hrun => hj (hrun j hle hlt)

/-- A search that has excluded every start below `start` and counted `k`
matching positions before a failing one may go on behind the failing one. -/
theorem excluded_past {start k n : Nat} (hbelow : ∀ s, s < start → ¬ Run p s n)
    (hk : k < n) (hfail : ¬ p (start + k)) :
    ∀ s, s < start + k + 1 → ¬ Run p s n := by
  intro s hs
  by_cases hlt : s < start
  · exact hbelow s hlt
  · exact not_of_mem hfail (by omega) (by omega)

end Run

theorem IsFirstRun.unique {n s t : Nat} (hs : IsFirstRun p n s)
    (ht : IsFirstRun p n t) : s = t := by
  rcases Nat.lt_trichotomy s t with hlt | heq | hgt
  · exact absurd hs.run (ht.lowest s hlt)
  · exact heq
  · exact absurd ht.run (hs.lowest t hgt)

/-- A run of length `n` needs `n` positions. -/
theorem Run.card_le {start n : Nat} {s : Finset Nat}
    (hrun : Run (· ∈ s) start n) : n ≤ s.card := by
  have hsub : Finset.Ico start (start + n) ⊆ s := by
    intro i hi
    rw [Finset.mem_Ico] at hi
    exact hrun i hi.1 hi.2
  simpa using Finset.card_le_card hsub

end ClayFigure.Math
