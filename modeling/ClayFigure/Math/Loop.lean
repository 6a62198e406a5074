/-
# Loops

A loop that can end, go on from another state, or fail in the middle of a pass. How often it goes
round is not known beforehand: a run with a number of passes finds a result if it needs no more,
and `Finishes` says that some number is enough.
-/

import Mathlib.Logic.Relation
import Mathlib.Tactic.Common

namespace ClayFigure.Math

universe u v

variable {α : Type u} {ρ : Type v} (step : α → Option (α ⊕ ρ))

/-- At most `fuel` passes; one pass fails, goes on or gives the result. -/
def loop : Nat → α → Option ρ
  | 0, _ => none
  | fuel + 1, a =>
      match step a with
      | none => none
      | some (.inl b) => loop fuel b
      | some (.inr r) => some r

/-- The loop ends with a result. -/
inductive Finishes : α → ρ → Prop
  | done {a : α} {r : ρ} (hstep : step a = some (.inr r)) : Finishes a r
  | next {a b : α} {r : ρ} (hstep : step a = some (.inl b)) (hends : Finishes b r) : Finishes a r

variable {step} {a b : α} {r r' : ρ}

theorem Finishes.exists_fuel (h : Finishes step a r) : ∃ fuel, loop step fuel a = some r := by
  induction h with
  | done hstep => exact ⟨1, by rw [loop, hstep]⟩
  | next hstep _ ih =>
      obtain ⟨fuel, hfuel⟩ := ih
      refine ⟨fuel + 1, ?_⟩
      rw [loop, hstep]
      exact hfuel

theorem ends_of_loop {fuel : Nat} (h : loop step fuel a = some r) : Finishes step a r := by
  induction fuel generalizing a with
  | zero => cases h
  | succ fuel ih =>
      rw [loop] at h
      split at h
      · cases h
      · next hstep => exact .next hstep (ih h)
      · next hstep =>
          cases h
          exact .done hstep

/-- A loop ends just if some number of passes is enough. -/
theorem exists_loop_iff : (∃ fuel, loop step fuel a = some r) ↔ Finishes step a r :=
  ⟨fun ⟨_, h⟩ => ends_of_loop h, Finishes.exists_fuel⟩

/-- More passes do not change the result. -/
theorem loop_mono {m n : Nat} (h : loop step m a = some r) (hle : m ≤ n) :
    loop step n a = some r := by
  induction m generalizing a n with
  | zero => cases h
  | succ m ih =>
      obtain ⟨n, rfl⟩ := Nat.exists_eq_add_of_le' hle
      rw [← Nat.add_assoc, loop]
      rw [loop] at h
      split at h
      · cases h
      · exact ih h (Nat.le_add_left m n)
      · exact h

theorem ends_inl (hstep : step a = some (.inl b)) : Finishes step a r ↔ Finishes step b r := by
  refine ⟨fun h => ?_, .next hstep⟩
  cases h with
  | done hstep' => cases hstep.symm.trans hstep'
  | next hstep' hends =>
      cases hstep.symm.trans hstep'
      exact hends

theorem ends_inr (hstep : step a = some (.inr r)) : Finishes step a r' ↔ r' = r := by
  refine ⟨fun h => ?_, fun h => h ▸ .done hstep⟩
  cases h with
  | done hstep' =>
      cases hstep.symm.trans hstep'
      rfl
  | next hstep' _ => cases hstep.symm.trans hstep'

theorem not_ends_of_none (hstep : step a = none) : ¬ Finishes step a r := by
  intro h
  cases h with
  | done hstep' => cases hstep.symm.trans hstep'
  | next hstep' _ => cases hstep.symm.trans hstep'

theorem Finishes.unique (h : Finishes step a r) (h' : Finishes step a r') : r = r' := by
  induction h with
  | done hstep => exact ((ends_inr hstep).mp h').symm
  | next hstep _ ih => exact ih ((ends_inl hstep).mp h')

/-- A loop that stays among states in which it does not end, does not end. -/
theorem not_ends_of_stays {P : α → Prop}
    (hstays : ∀ a, P a → step a = none ∨ ∃ b, step a = some (.inl b) ∧ P b) (ha : P a) :
    ¬ Finishes step a r := by
  intro h
  induction h with
  | done hstep =>
      rcases hstays _ ha with hnone | ⟨b, hnext, -⟩
      · cases hstep.symm.trans hnone
      · cases hstep.symm.trans hnext
  | next hstep _ ih =>
      rcases hstays _ ha with hnone | ⟨b, hnext, hb⟩
      · cases hstep.symm.trans hnone
      · cases hstep.symm.trans hnext
        exact ih hb

variable (step) in
/-- The loop comes to a pass from `b`. -/
def GoesTo (a b : α) : Prop := Relation.ReflTransGen (fun a b => step a = some (.inl b)) a b

/-- What the loop ends with does not depend on where in its run it is. -/
theorem GoesTo.ends_iff (h : GoesTo step a b) : Finishes step a r ↔ Finishes step b r := by
  induction h with
  | refl => exact Iff.rfl
  | tail _ hstep ih => exact ih.trans (ends_inl hstep)

/-- A loop that does not fail ends just if every path of passes ends. -/
theorem exists_ends_iff_acc (hstep : ∀ a, step a ≠ none) :
    (∃ r, Finishes step a r) ↔ Acc (fun b a => step a = some (.inl b)) a := by
  constructor
  · rintro ⟨r, h⟩
    induction h with
    | done hend => exact ⟨_, fun b hb => by cases hend.symm.trans hb⟩
    | next hnext _ ih =>
        refine ⟨_, fun b hb => ?_⟩
        cases hnext.symm.trans hb
        exact ih
  · intro h
    induction h with
    | intro a _ ih =>
        cases ha : step a with
        | none => exact absurd ha (hstep a)
        | some s =>
            cases s with
            | inr r => exact ⟨r, .done ha⟩
            | inl b =>
                obtain ⟨r, hr⟩ := ih b ha
                exact ⟨r, .next ha hr⟩

/-- The end of a loop is the end of some pass that it comes to. -/
theorem ends_iff_reaches : Finishes step a r ↔ ∃ b, GoesTo step a b ∧ step b = some (.inr r) := by
  constructor
  · intro h
    induction h with
    | done hstep => exact ⟨_, .refl, hstep⟩
    | next hstep _ ih =>
        obtain ⟨b, hb, hend⟩ := ih
        exact ⟨b, .head hstep hb, hend⟩
  · rintro ⟨b, hb, hend⟩
    exact hb.ends_iff.mpr (.done hend)

/-- A loop that goes on from smaller and smaller states, or ends well, ends well. -/
theorem exists_ends {P : α → Prop} {good : ρ → Prop} (size : α → Nat)
    (hstep : ∀ a, P a → (∃ r, step a = some (.inr r) ∧ good r) ∨
      ∃ b, step a = some (.inl b) ∧ P b ∧ size b < size a) (ha : P a) :
    ∃ r, Finishes step a r ∧ good r := by
  induction hn : size a using Nat.strongRecOn generalizing a with
  | ind n ih =>
      rcases hstep a ha with ⟨r, hr, hgood⟩ | ⟨b, hb, hPb, hlt⟩
      · exact ⟨r, .done hr, hgood⟩
      · obtain ⟨r, hr, hgood⟩ := ih (size b) (hn ▸ hlt) hPb rfl
        exact ⟨r, .next hb hr, hgood⟩

/-- A loop ends well just if it is sound wherever it comes to: there it goes on from a smaller
state or ends well, and elsewhere it fails, stays where it is, or ends badly. -/
theorem exists_ends_iff (sound : α → Prop) {good : ρ → Prop} (size : α → Nat)
    (hsound : ∀ a, sound a → (∃ r, step a = some (.inr r) ∧ good r) ∨
      ∃ b, step a = some (.inl b) ∧ size b < size a)
    (hunsound : ∀ a, ¬ sound a → step a = none ∨ step a = some (.inl a) ∨
      ∃ r, step a = some (.inr r) ∧ ¬ good r) :
    (∃ r, Finishes step a r ∧ good r) ↔ ∀ b, GoesTo step a b → sound b := by
  constructor
  · rintro ⟨r, hends, hgood⟩ b hb
    by_contra hbad
    rw [hb.ends_iff] at hends
    rcases hunsound b hbad with hnone | hstays | ⟨r', hr', hnot⟩
    · exact not_ends_of_none hnone hends
    · refine not_ends_of_stays (P := (· = b)) ?_ rfl hends
      rintro _ rfl
      exact .inr ⟨_, hstays, rfl⟩
    · obtain rfl := (ends_inr hr').mp hends
      exact hnot hgood
  · intro h
    refine exists_ends (P := GoesTo step a) size (fun b hb => ?_) .refl
    rcases hsound b (h b hb) with hend | ⟨b', hstep, hlt⟩
    · exact .inl hend
    · exact .inr ⟨b', hstep, hb.tail hstep, hlt⟩

end ClayFigure.Math
