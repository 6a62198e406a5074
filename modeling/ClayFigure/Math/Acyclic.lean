/-
# Relations without cycles

A relation whose edges come and go one at a time: taking edges away closes no cycle, and
putting one in closes a cycle only if its target already leads back to its source. From an
element of a finite type all paths end just if they come to no cycle.
-/

import Mathlib.Data.Fintype.Card
import Mathlib.Logic.Relation

namespace ClayFigure.Math

open Relation

universe u

variable {α : Type u} {r r' : α → α → Prop}

/-- No element leads back to itself. -/
def Acyclic (r : α → α → Prop) : Prop := ∀ a, ¬ TransGen r a a

namespace Acyclic

theorem mono (h : Acyclic r) (hle : ∀ a b, r' a b → r a b) : Acyclic r' :=
  fun a hcycle => h a (TransGen.mono hle a a hcycle)

/-- A path either avoids the new edge or passes through it. -/
theorem path_insert {a b : α} (hle : ∀ x y, r' x y → r x y ∨ x = a ∧ y = b) {x y : α}
    (hpath : TransGen r' x y) : TransGen r x y ∨ ReflTransGen r x a ∧ ReflTransGen r b y := by
  induction hpath with
  | single hedge =>
      rcases hle _ _ hedge with hold | ⟨rfl, rfl⟩
      · exact Or.inl (.single hold)
      · exact Or.inr ⟨.refl, .refl⟩
  | tail _ hedge ih =>
      rcases hle _ _ hedge with hold | ⟨rfl, rfl⟩
      · exact ih.imp (·.tail hold) fun hthrough => ⟨hthrough.1, hthrough.2.tail hold⟩
      · exact Or.inr ⟨ih.elim (·.to_reflTransGen) (·.1), .refl⟩

/-- A new edge closes no cycle if its target does not lead back to its source. -/
theorem insert (h : Acyclic r) {a b : α} (hback : ¬ ReflTransGen r b a)
    (hle : ∀ x y, r' x y → r x y ∨ x = a ∧ y = b) : Acyclic r' := by
  intro x hcycle
  rcases path_insert hle hcycle with hold | ⟨hfrom, hto⟩
  · exact h x hold
  · exact hback (hto.trans hfrom)

end Acyclic

/-- Where all paths end there is no cycle. -/
theorem not_transGen_of_acc {a : α} (h : Acc (fun y x => r x y) a) {b : α}
    (hpath : ReflTransGen r a b) : ¬ TransGen r b b := by
  induction h generalizing b with
  | intro a _ ih =>
      rcases hpath.cases_head with rfl | ⟨c, hedge, hpath⟩
      · intro hcycle
        obtain ⟨c, hedge, hback⟩ := TransGen.head'_iff.mp hcycle
        exact ih c hedge hback hcycle
      · exact ih c hedge hpath

/-- In a finite type all paths from an element end just if none of them comes to a cycle. -/
theorem acc_iff_of_finite [Finite α] {a : α} : Acc (fun y x => r x y) a ↔
    ∀ b, ReflTransGen r a b → ¬ TransGen r b b := by
  refine ⟨fun h b hpath => not_transGen_of_acc h hpath, fun h => ?_⟩
  -- `x` comes after `y` on a path from `a`
  let after (x y : α) : Prop := ReflTransGen r a y ∧ TransGen r y x
  have htrans : IsTrans α after := ⟨fun _ _ _ hxy hyz => ⟨hyz.1, hyz.2.trans hxy.2⟩⟩
  have hirrefl : Std.Irrefl after := ⟨fun x hx => h x hx.1 hx.2⟩
  have hwf := Finite.wellFounded_of_trans_of_irrefl after
  suffices hacc : ∀ b, ReflTransGen r a b → Acc (fun y x => r x y) b from hacc a .refl
  intro b
  induction b using hwf.induction with
  | _ b ih =>
      intro hpath
      exact ⟨b, fun c hedge => ih c ⟨hpath, .single hedge⟩ (hpath.tail hedge)⟩

end ClayFigure.Math
