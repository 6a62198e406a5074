/-
# Changes that a function does not see

A partial function on states does not see a change of the state when it can as well be made
afterwards. This is asked of the states of an invariant only, which the function has to keep, so
that it goes through sequences and loops.
-/

import Mathlib.Tactic.Common

namespace ClayFigure.Math

universe u v

variable {α : Type u} {β ι : Type v} {P : α → Prop} {φ : α → α} {F G : α → Option α}

/-- On the states of `P`, which it keeps, `F` does not see the change `φ`. -/
def Blind (P : α → Prop) (φ : α → α) (F : α → Option α) : Prop :=
  ∀ a, P a → F (φ a) = (F a).map φ ∧ ∀ b, F a = some b → P b

namespace Blind

theorem pure : Blind P φ some := fun _ ha => ⟨rfl, fun _ hb => Option.some.inj hb ▸ ha⟩

theorem bind (hF : Blind P φ F) (hG : Blind P φ G) : Blind P φ fun a => (F a).bind G := by
  intro a ha
  obtain ⟨heq, hkeep⟩ := hF a ha
  constructor
  · simp only [heq]
    cases hb : F a with
    | none => rfl
    | some b => exact (hG b (hkeep b hb)).1
  · intro c hc
    obtain ⟨b, hb, hc⟩ := Option.bind_eq_some_iff.mp hc
    exact (hG b (hkeep b hb)).2 c hc

/-- A choice that does not depend on the change. -/
theorem ite {c : α → Prop} [DecidablePred c] (hc : ∀ a, c (φ a) ↔ c a) (hF : Blind P φ F)
    (hG : Blind P φ G) : Blind P φ fun a => if c a then F a else G a := by
  intro a ha
  by_cases h : c a
  · simp only [if_pos h, if_pos ((hc a).mpr h)]
    exact hF a ha
  · simp only [if_neg h, if_neg (mt (hc a).mp h)]
    exact hG a ha

/-- What is read does not change. -/
theorem read {r : α → β} (hr : ∀ a, r (φ a) = r a) {F : β → α → Option α}
    (hF : ∀ b, Blind P φ (F b)) : Blind P φ fun a => F (r a) a := by
  intro a ha
  simp only [hr]
  exact hF (r a) a ha

/-- A loop is blind when its body is. -/
theorem foldlM {body : α → ι → Option α} {is : List ι}
    (hbody : ∀ i ∈ is, Blind P φ fun a => body a i) : Blind P φ fun a => is.foldlM body a := by
  induction is with
  | nil => exact pure
  | cons i is ih =>
      exact bind (hbody i List.mem_cons_self) (ih fun j hj => hbody j (List.mem_cons_of_mem _ hj))

end Blind

end ClayFigure.Math
