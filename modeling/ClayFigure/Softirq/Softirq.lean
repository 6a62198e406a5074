/-
# Soft interrupts

One pass of `do_softirq` over the 64 bits of `softirq.status`, with `raise_softirq` called by
handlers and interrupts at any point of it. The pass has two early exits: no bit is set, and a
bit is set whose interrupt has no action. The second takes the bit away and leaves all higher
ones to a later pass; the result says that this is all that goes wrong.
-/

import Mathlib.Data.Finset.Insert
import Mathlib.Data.Fintype.Basic
import Mathlib.Data.List.FinRange
import ClayFigure.Kernel.Global

namespace ClayFigure

/-! ## The code -/

/-- `MAX_SOFTIRQ`. -/
abbrev maxSoftirq : Nat := 64

/-- A soft interrupt: a bit of `softirq.status`. -/
abbrev Irq : Type := Fin maxSoftirq

/-- `softirq_t`; an action is the address of a function, and `NULL` is 0. -/
structure SoftirqAction where
  action : Nat
  data : Nat
  deriving DecidableEq, Repr

/-- `softirq`: the bits that are set, and the table of the actions. -/
structure Softirq where
  status : Finset Irq
  actions : Irq → SoftirqAction

/-- The calls of `raise_softirq` during a pass: before bit `i` is reached and the mask is read,
between that and the test of the bit, and while the action of `i` runs. -/
structure Raises where
  beforeRead : Irq → Finset Irq
  beforeTest : Irq → Finset Irq
  whileRunning : Irq → Finset Irq

/-- What a pass does: the bits it tests, the bits it clears and the actions it runs, each in
order, and the mask it leaves. -/
structure SoftirqPass where
  tested : List Irq
  cleared : List Irq
  ran : List Irq
  status : Finset Irq

namespace Softirq

/-- `softirq_init`. -/
def init : Softirq := ⟨∅, fun _ => ⟨0, 0⟩⟩

/-- `register_softirq`. -/
def registerSoftirq (s : Softirq) (irq : Irq) (action data : Nat) : Softirq :=
  { s with actions := Function.update s.actions irq ⟨action, data⟩ }

/-- `unregister_softirq`. -/
def unregisterSoftirq (s : Softirq) (irq : Irq) : Softirq :=
  { s with actions := Function.update s.actions irq ⟨0, 0⟩ }

/-- `raise_softirq`. -/
def raiseSoftirq (s : Softirq) (irq : Irq) : Softirq := { s with status := insert irq s.status }

end Softirq

namespace SoftirqPass

/-- A bit that is tested and not set. -/
def skip (i : Irq) (pass : SoftirqPass) : SoftirqPass := { pass with tested := i :: pass.tested }

/-- A bit that is tested, cleared and served. -/
def serve (i : Irq) (pass : SoftirqPass) : SoftirqPass :=
  { pass with
    tested := i :: pass.tested
    cleared := i :: pass.cleared
    ran := i :: pass.ran }

end SoftirqPass

/-- The loop of `do_softirq` over the bits that are left. -/
def softirqLoop (actions : Irq → SoftirqAction) (raises : Raises) :
    List Irq → Finset Irq → SoftirqPass
  | [], status => ⟨[], [], [], status⟩
  | i :: irqs, status =>
      let status := status ∪ raises.beforeRead i
      if status = ∅ then ⟨[], [], [], status⟩
      else
        let status := status ∪ raises.beforeTest i
        if i ∈ status then
          let status := status.erase i
          if (actions i).action = 0 then ⟨[i], [i], [], status⟩
          else (softirqLoop actions raises irqs (status ∪ raises.whileRunning i)).serve i
        else (softirqLoop actions raises irqs status).skip i

/-- `do_softirq`. -/
def Softirq.doSoftirq (s : Softirq) (raises : Raises) : SoftirqPass :=
  softirqLoop s.actions raises (List.finRange maxSoftirq) s.status

/-! ## What a pass should do -/

/-- The interrupt has an action. -/
def Softirq.Registered (s : Softirq) (i : Irq) : Prop := (s.actions i).action ≠ 0

/-- A pass that serves: a registered interrupt that is pending on entry runs once, none has its
bit cleared without running, and one that is left pending has had its turn and was raised after
it. -/
structure Softirq.Serves (s : Softirq) (pass : SoftirqPass) : Prop where
  once : ∀ i ∈ s.status, s.Registered i → pass.ran.count i = 1
  run : ∀ i, s.Registered i → pass.cleared.count i = pass.ran.count i
  prompt : ∀ i ∈ pass.status, s.Registered i → i ∈ pass.tested

/-- The pass over `irqs` comes to the test of `u` with the mask `mask`. -/
inductive Turn (actions : Irq → SoftirqAction) (raises : Raises) (u : Irq) (mask : Finset Irq) :
    List Irq → Finset Irq → Prop
  | here {irqs : List Irq} {status : Finset Irq} (hread : status ∪ raises.beforeRead u ≠ ∅)
      (hmask : mask = status ∪ raises.beforeRead u ∪ raises.beforeTest u) :
      Turn actions raises u mask (u :: irqs) status
  | skip {i : Irq} {irqs : List Irq} {status : Finset Irq}
      (hread : status ∪ raises.beforeRead i ≠ ∅)
      (htest : i ∉ status ∪ raises.beforeRead i ∪ raises.beforeTest i)
      (hrest : Turn actions raises u mask irqs
        (status ∪ raises.beforeRead i ∪ raises.beforeTest i)) :
      Turn actions raises u mask (i :: irqs) status
  | serve {i : Irq} {irqs : List Irq} {status : Finset Irq}
      (hread : status ∪ raises.beforeRead i ≠ ∅)
      (htest : i ∈ status ∪ raises.beforeRead i ∪ raises.beforeTest i) (haction : (actions i).action ≠ 0)
      (hrest : Turn actions raises u mask irqs
        ((status ∪ raises.beforeRead i ∪ raises.beforeTest i).erase i ∪ raises.whileRunning i)) :
      Turn actions raises u mask (i :: irqs) status

/-- Whenever the pass tests a bit that is set and has no action, no registered interrupt above it
is pending. -/
def Softirq.NoneBehind (s : Softirq) (raises : Raises) : Prop :=
  ∀ u mask, Turn s.actions raises u mask (List.finRange maxSoftirq) s.status →
    u ∈ mask → ¬ s.Registered u → ∀ j ∈ mask, u < j → ¬ s.Registered j

/-! ## The passes of the loop -/

section Loop

variable {actions : Irq → SoftirqAction} {raises : Raises} {i j u : Irq} {irqs : List Irq}
  {status mask : Finset Irq}

theorem softirqLoop_empty (hread : status ∪ raises.beforeRead i = ∅) :
    softirqLoop actions raises (i :: irqs) status = ⟨[], [], [], ∅⟩ := by
  unfold softirqLoop
  rw [hread]
  rfl

theorem softirqLoop_skip (hread : status ∪ raises.beforeRead i ≠ ∅)
    (htest : i ∉ status ∪ raises.beforeRead i ∪ raises.beforeTest i) :
    softirqLoop actions raises (i :: irqs) status =
      (softirqLoop actions raises irqs
        (status ∪ raises.beforeRead i ∪ raises.beforeTest i)).skip i := by
  rw [softirqLoop]
  dsimp only
  rw [if_neg hread, if_neg htest]

theorem softirqLoop_stop (hread : status ∪ raises.beforeRead i ≠ ∅)
    (htest : i ∈ status ∪ raises.beforeRead i ∪ raises.beforeTest i)
    (haction : (actions i).action = 0) :
    softirqLoop actions raises (i :: irqs) status =
      ⟨[i], [i], [], (status ∪ raises.beforeRead i ∪ raises.beforeTest i).erase i⟩ := by
  rw [softirqLoop]
  dsimp only
  rw [if_neg hread, if_pos htest, if_pos haction]

theorem softirqLoop_serve (hread : status ∪ raises.beforeRead i ≠ ∅)
    (htest : i ∈ status ∪ raises.beforeRead i ∪ raises.beforeTest i)
    (haction : (actions i).action ≠ 0) :
    softirqLoop actions raises (i :: irqs) status =
      (softirqLoop actions raises irqs
        ((status ∪ raises.beforeRead i ∪ raises.beforeTest i).erase i ∪
          raises.whileRunning i)).serve i := by
  rw [softirqLoop]
  dsimp only
  rw [if_neg hread, if_pos htest, if_neg haction]

variable (actions raises) in
/-- A registered interrupt is cleared as often as it runs, and at most as often as the loop
comes to it. -/
theorem softirqLoop_ran (irqs : List Irq) : ∀ status,
    (∀ j, (actions j).action ≠ 0 → (softirqLoop actions raises irqs status).cleared.count j =
      (softirqLoop actions raises irqs status).ran.count j) ∧
    List.Sublist (softirqLoop actions raises irqs status).ran irqs := by
  induction irqs with
  | nil => exact fun status => ⟨fun _ _ => rfl, List.Sublist.refl _⟩
  | cons i irqs ih =>
      intro status
      by_cases hread : status ∪ raises.beforeRead i = ∅
      · rw [softirqLoop_empty hread]
        exact ⟨fun _ _ => rfl, List.nil_sublist _⟩
      by_cases htest : i ∈ status ∪ raises.beforeRead i ∪ raises.beforeTest i
      · by_cases haction : (actions i).action = 0
        · rw [softirqLoop_stop hread htest haction]
          refine ⟨fun j hj => ?_, List.nil_sublist _⟩
          have hne : i ≠ j := fun h => hj (h ▸ haction)
          exact List.count_eq_zero.mpr fun h => hne (List.mem_singleton.mp h).symm
        · rw [softirqLoop_serve hread htest haction]
          obtain ⟨hcount, hsub⟩ := ih ((status ∪ raises.beforeRead i ∪ raises.beforeTest i).erase i ∪
            raises.whileRunning i)
          refine ⟨fun j hj => ?_, hsub.cons_cons i⟩
          rw [SoftirqPass.serve, List.count_cons, List.count_cons, hcount j hj]
      · rw [softirqLoop_skip hread htest]
        obtain ⟨hcount, hsub⟩ := ih (status ∪ raises.beforeRead i ∪ raises.beforeTest i)
        exact ⟨hcount, hsub.cons i⟩

variable (actions raises) in
/-- A pending interrupt that is registered runs at its test; before it, the bit stays set. -/
theorem softirqLoop_pending (irqs : List Irq) : irqs.Nodup → ∀ status, j ∈ status → j ∈ irqs →
    (actions j).action ≠ 0 → (j ∈ (softirqLoop actions raises irqs status).tested →
      j ∈ (softirqLoop actions raises irqs status).ran) ∧
    (j ∉ (softirqLoop actions raises irqs status).tested →
      j ∈ (softirqLoop actions raises irqs status).status) := by
  induction irqs with
  | nil => exact fun _ _ _ hmem => absurd hmem List.not_mem_nil
  | cons i irqs ih =>
      intro hnodup status hpending hmem hregistered
      obtain ⟨hnotMem, hnodup⟩ := List.nodup_cons.mp hnodup
      have hread : status ∪ raises.beforeRead i ≠ ∅ := by
        apply Finset.nonempty_iff_ne_empty.mp
        exact ⟨j, Finset.mem_union_left _ hpending⟩
      have hmask : j ∈ status ∪ raises.beforeRead i ∪ raises.beforeTest i :=
        Finset.mem_union_left _ (Finset.mem_union_left _ hpending)
      by_cases htest : i ∈ status ∪ raises.beforeRead i ∪ raises.beforeTest i
      · by_cases haction : (actions i).action = 0
        · rw [softirqLoop_stop hread htest haction]
          have hne : j ≠ i := fun h => hregistered (h ▸ haction)
          exact ⟨fun h => absurd (List.mem_singleton.mp h) hne, fun _ =>
            Finset.mem_erase.mpr ⟨hne, hmask⟩⟩
        · rw [softirqLoop_serve hread htest haction]
          by_cases hne : j = i
          · subst hne
            exact ⟨fun _ => List.mem_cons_self .., fun h => absurd (List.mem_cons_self ..) h⟩
          · have hmem := (List.mem_cons.mp hmem).resolve_left hne
            obtain ⟨hran, hkept⟩ := ih hnodup _
              (Finset.mem_union_left _ (Finset.mem_erase.mpr ⟨hne, hmask⟩)) hmem hregistered
            exact ⟨fun h => List.mem_cons_of_mem _ (hran ((List.mem_cons.mp h).resolve_left hne)),
              fun h => hkept fun h' => h (List.mem_cons_of_mem _ h')⟩
      · rw [softirqLoop_skip hread htest]
        have hne : j ≠ i := fun h => htest (h ▸ hmask)
        have hmem := (List.mem_cons.mp hmem).resolve_left hne
        obtain ⟨hran, hkept⟩ := ih hnodup _ hmask hmem hregistered
        exact ⟨fun h => hran ((List.mem_cons.mp h).resolve_left hne),
          fun h => hkept fun h' => h (List.mem_cons_of_mem _ h')⟩

theorem Turn.mem (h : Turn actions raises u mask irqs status) : u ∈ irqs := by
  induction h with
  | here => exact List.mem_cons_self ..
  | skip _ _ _ ih => exact List.mem_cons_of_mem _ ih
  | serve _ _ _ _ ih => exact List.mem_cons_of_mem _ ih

variable (actions raises) in
/-- The registered interrupts left pending have had their turn just when no bit without an
action is set in front of one of them. -/
theorem softirqLoop_prompt_iff (irqs : List Irq) : irqs.Pairwise (· < ·) → ∀ status,
    ((∀ j ∈ (softirqLoop actions raises irqs status).status, (actions j).action ≠ 0 → j ∈ irqs →
      j ∈ (softirqLoop actions raises irqs status).tested) ↔
    ∀ u mask, Turn actions raises u mask irqs status → u ∈ mask → (actions u).action = 0 →
      ∀ j ∈ mask, u < j → (actions j).action ≠ 0 → j ∉ irqs) := by
  induction irqs with
  | nil =>
      intro _ status
      exact iff_of_true (fun _ _ _ h => absurd h List.not_mem_nil) fun _ _ h => nomatch h
  | cons i irqs ih =>
      intro hsorted status
      obtain ⟨hfirst, hsorted⟩ := List.pairwise_cons.mp hsorted
      by_cases hread : status ∪ raises.beforeRead i = ∅
      · rw [softirqLoop_empty hread]
        refine iff_of_true (fun _ h => absurd h (Finset.notMem_empty _)) fun u mask hturn => ?_
        cases hturn with
        | here hne => exact absurd hread hne
        | skip hne => exact absurd hread hne
        | serve hne => exact absurd hread hne
      by_cases htest : i ∈ status ∪ raises.beforeRead i ∪ raises.beforeTest i
      · by_cases haction : (actions i).action = 0
        · rw [softirqLoop_stop hread htest haction]
          constructor
          · intro hprompt u mask hturn humem hu j hj hlt hregistered hmem
            cases hturn with
            | here _ hmask =>
                have hne : j ≠ i := hlt.ne'
                have := hprompt j (Finset.mem_erase.mpr ⟨hne, hmask ▸ hj⟩) hregistered hmem
                exact hne (List.mem_singleton.mp this)
            | skip _ hnot => exact absurd htest hnot
            | serve _ _ hne => exact absurd haction hne
          · intro hnone j hj hregistered hmem
            obtain ⟨hne, hj⟩ := Finset.mem_erase.mp hj
            have hrest := (List.mem_cons.mp hmem).resolve_left hne
            exact absurd hmem (hnone i _ (.here hread rfl) htest haction j hj (hfirst j hrest)
              hregistered)
        · rw [softirqLoop_serve hread htest haction]
          have hrest := ih hsorted ((status ∪ raises.beforeRead i ∪ raises.beforeTest i).erase i ∪
            raises.whileRunning i)
          constructor
          · intro hprompt u mask hturn humem hu j hj hlt hregistered hmem
            cases hturn with
            | here => exact absurd hu haction
            | skip _ hnot => exact absurd htest hnot
            | serve _ _ _ hturn =>
                have hne : j ≠ i := ((hfirst u hturn.mem).trans hlt).ne'
                refine hrest.mp (fun k hk hreg hkmem => ?_) u mask hturn humem hu j hj hlt hregistered
                  ((List.mem_cons.mp hmem).resolve_left hne)
                have hk := hprompt k hk hreg (List.mem_cons_of_mem _ hkmem)
                exact (List.mem_cons.mp hk).resolve_left (hfirst k hkmem).ne'
          · intro hnone j hj hregistered hmem
            by_cases hne : j = i
            · exact hne ▸ List.mem_cons_self ..
            · refine List.mem_cons_of_mem _ (hrest.mpr (fun u mask hturn hu hua k hk hlt hreg hkmem =>
                ?_) j hj hregistered ((List.mem_cons.mp hmem).resolve_left hne))
              exact hnone u mask (.serve hread htest haction hturn) hu hua k hk hlt hreg
                (List.mem_cons_of_mem _ hkmem)
      · rw [softirqLoop_skip hread htest]
        have hrest := ih hsorted (status ∪ raises.beforeRead i ∪ raises.beforeTest i)
        constructor
        · intro hprompt u mask hturn humem hu j hj hlt hregistered hmem
          cases hturn with
          | here _ hmask => exact absurd (hmask ▸ humem) htest
          | serve _ hin => exact absurd hin htest
          | skip _ _ hturn =>
              have hne : j ≠ i := ((hfirst u hturn.mem).trans hlt).ne'
              refine hrest.mp (fun k hk hreg hkmem => ?_) u mask hturn humem hu j hj hlt hregistered
                ((List.mem_cons.mp hmem).resolve_left hne)
              have hk := hprompt k hk hreg (List.mem_cons_of_mem _ hkmem)
              exact (List.mem_cons.mp hk).resolve_left (hfirst k hkmem).ne'
        · intro hnone j hj hregistered hmem
          by_cases hne : j = i
          · exact hne ▸ List.mem_cons_self ..
          · refine List.mem_cons_of_mem _ (hrest.mpr (fun u mask hturn hu hua k hk hlt hreg hkmem =>
              ?_) j hj hregistered ((List.mem_cons.mp hmem).resolve_left hne))
            exact hnone u mask (.skip hread htest hturn) hu hua k hk hlt hreg
              (List.mem_cons_of_mem _ hkmem)

end Loop

/-! ## One pass -/

/-- When a pass serves. -/
theorem doSoftirq_serves_iff (s : Softirq) (raises : Raises) :
    s.Serves (s.doSoftirq raises) ↔ s.NoneBehind raises := by
  have hnodup := List.nodup_finRange maxSoftirq
  have hprompt := softirqLoop_prompt_iff s.actions raises
    (List.finRange maxSoftirq) (List.pairwise_lt_finRange maxSoftirq) s.status
  have hnone : s.NoneBehind raises ↔ ∀ j ∈ (s.doSoftirq raises).status, s.Registered j →
      j ∈ (s.doSoftirq raises).tested := by
    constructor
    · intro h j hj hregistered
      refine hprompt.mpr ?_ j hj hregistered (List.mem_finRange j)
      exact fun u mask hturn hu hua k hk hlt hreg =>
        absurd hreg (h u mask hturn hu (not_not.mpr hua) k hk hlt)
    · intro h u mask hturn hu hua j hj hlt hregistered
      refine hprompt.mp (fun k hk hreg _ => h k hk hreg) u mask hturn hu (not_not.mp hua) j hj hlt
        hregistered (List.mem_finRange j)
  rw [hnone]
  constructor
  · exact fun h => h.prompt
  · intro h
    obtain ⟨hcleared, hsub⟩ := softirqLoop_ran s.actions raises
      (List.finRange maxSoftirq) s.status
    refine ⟨fun j hj hregistered => ?_, hcleared, h⟩
    obtain ⟨hran, hkept⟩ := softirqLoop_pending s.actions raises (List.finRange maxSoftirq)
      hnodup s.status hj (List.mem_finRange j) hregistered
    have hmem : j ∈ (s.doSoftirq raises).ran := by
      apply hran
      by_contra htested
      exact htested (h j (hkept htested) hregistered)
    exact List.count_eq_one_of_mem (hsub.nodup hnodup) hmem

/-- No interrupt is raised during the pass. -/
def quiet : Raises := ⟨fun _ => ∅, fun _ => ∅, fun _ => ∅⟩

/-- The keyboard's interrupt has an action and the timer's has none, and both are pending. -/
def keyboardOnly : Softirq :=
  ((Softirq.init.registerSoftirq 1 0x1000 0).raiseSoftirq 0).raiseSoftirq 1

/-- The pass ends at the timer's bit, and the keyboard waits. -/
theorem keyboardOnly_not_serves : ¬ keyboardOnly.Serves (keyboardOnly.doSoftirq quiet) := by
  intro h
  have hstop : keyboardOnly.doSoftirq quiet = ⟨[0], [0], [], _⟩ :=
    softirqLoop_stop (by decide) (by decide) rfl
  have hregistered : (keyboardOnly.actions 1).action ≠ 0 := by decide
  have honce := h.once 1 (by decide) hregistered
  rw [hstop] at honce
  exact absurd honce (by decide)

end ClayFigure
