/-
# Labelled transition systems

The runs of every component of the kernel are runs of one of these systems. A
guard selects the runs all of whose steps meet a condition at the state they
start from; the unguarded runs are those of the guard that always holds. The
induction over runs is done once, in `ReachableWhen.invariant`. Where the steps are
computed a run is a list of labels, and `runWhen` computes the state it leads to.
-/

import Mathlib.Logic.Relation
import Mathlib.Tactic.Common

namespace ClayFigure.Math

universe u v

/-- A set of initial states and a labelled step relation. -/
structure System (σ : Type u) (α : Type v) where
  init : σ → Prop
  step : σ → α → σ → Prop

namespace System

variable {σ : Type u} {α : Type v} (S : System σ α)

/-- The states reached by runs whose every step meets `guard`. -/
inductive ReachableWhen (guard : σ → α → Prop) : σ → Prop
  | init {s : σ} (hinit : S.init s) : ReachableWhen guard s
  | step {s t : σ} {a : α} (hreach : ReachableWhen guard s) (hguard : guard s a)
      (hstep : S.step s a t) : ReachableWhen guard t

/-- The states reached by any run. -/
abbrev Reachable : σ → Prop := S.ReachableWhen fun _ _ => True

variable {S}

/-- A property that holds initially and is kept by every guarded step holds in
every state a guarded run reaches. -/
theorem ReachableWhen.invariant {guard : σ → α → Prop} {P : σ → Prop}
    (hinit : ∀ s, S.init s → P s)
    (hstep : ∀ s a t, P s → guard s a → S.step s a t → P t)
    {s : σ} (hreach : S.ReachableWhen guard s) : P s := by
  induction hreach with
  | init h => exact hinit _ h
  | step _ hguard hnext ih => exact hstep _ _ _ ih hguard hnext

/-- A weaker guard admits more runs. -/
theorem ReachableWhen.mono {guard guard' : σ → α → Prop}
    (hle : ∀ s a, guard s a → guard' s a) {s : σ}
    (hreach : S.ReachableWhen guard s) : S.ReachableWhen guard' s := by
  induction hreach with
  | init h => exact .init h
  | step _ hguard hnext ih => exact .step ih (hle _ _ hguard) hnext

/-- Some run leads from one state to the other. -/
abbrev Steps (S : System σ α) : σ → σ → Prop :=
  Relation.ReflTransGen fun s t => ∃ a, S.step s a t

theorem Steps.reachable {s t : σ} (hsteps : S.Steps s t) (hreach : S.Reachable s) :
    S.Reachable t := by
  induction hsteps with
  | refl => exact hreach
  | tail _ hnext ih =>
      obtain ⟨a, hnext⟩ := hnext
      exact .step ih trivial hnext

/-! ## Runs that are computed -/

/-- The state after steps with these labels, if each of them can be made and the guard lets each
of them through. -/
def runWhen (guard : σ → α → Bool) (next : σ → α → Option σ) : σ → List α → Option σ
  | s, [] => some s
  | s, a :: labels =>
      if guard s a then (next s a).bind fun t => runWhen guard next t labels else none

theorem ReachableWhen.of_runWhen {guard : σ → α → Bool} {next : σ → α → Option σ}
    (hnext : ∀ s a t, next s a = some t → S.step s a t) {labels : List α} :
    ∀ {s t : σ}, S.ReachableWhen (guard · ·) s → runWhen guard next s labels = some t →
      S.ReachableWhen (guard · ·) t := by
  induction labels with
  | nil =>
      intro s t hreach hrun
      cases hrun
      exact hreach
  | cons a labels ih =>
      intro s t hreach hrun
      rw [runWhen] at hrun
      split at hrun
      · next hguard =>
          obtain ⟨u, hstep, hrest⟩ := Option.bind_eq_some_iff.mp hrun
          exact ih (hreach.step hguard (hnext _ _ _ hstep)) hrest
      · cases hrun

/-- What is seen of the state a guarded run leads to is seen of a reachable state. -/
theorem ReachableWhen.exists_run {γ : Type*} {guard : σ → α → Prop} [∀ s a, Decidable (guard s a)]
    {next : σ → α → Option σ} (hnext : ∀ s a t, next s a = some t → S.step s a t) {s : σ}
    (hreach : S.ReachableWhen guard s) {labels : List α} {view : σ → γ} {x : γ}
    (hrun : (runWhen (fun s a => decide (guard s a)) next s labels).map view = some x) :
    ∃ t, S.ReachableWhen guard t ∧ view t = x := by
  obtain ⟨t, ht, hview⟩ := Option.map_eq_some_iff.mp hrun
  have hreach : S.ReachableWhen (fun s a => decide (guard s a) = true) s :=
    hreach.mono fun _ _ hguard => decide_eq_true hguard
  exact ⟨t, (hreach.of_runWhen hnext ht).mono fun _ _ hguard => of_decide_eq_true hguard, hview⟩

/-- The same of runs without a guard. -/
theorem Reachable.exists_run {γ : Type*} {next : σ → α → Option σ}
    (hnext : ∀ s a t, next s a = some t → S.step s a t) {s : σ} (hreach : S.Reachable s)
    {labels : List α} {view : σ → γ} {x : γ}
    (hrun : (runWhen (fun _ _ => true) next s labels).map view = some x) :
    ∃ t, S.Reachable t ∧ view t = x :=
  ReachableWhen.exists_run hnext hreach hrun

end System

end ClayFigure.Math
