/-
# Runs of a range table

From `vmm_struct_init` on, through any sequence of calls that pass a proper range and
add only what is not there, a table stays compact, and each call does to the set of
addresses what its name says or nothing at all.
-/

import ClayFigure.Mem.VmmRanges

namespace ClayFigure

open ClayFigure.Math

/-- The calls on a range table. -/
inductive VmmCall
  | alloc (size : Nat)
  | addRange (start size : Nat)
  | removeRange (start size : Nat)

namespace Vmm

/-- The range is not empty and does not wrap, and what is added is not there yet. -/
def Admits (vmm : Vmm) : VmmCall → Prop
  | .alloc size => 0 < size
  | .addRange start size =>
      0 < size ∧ start + size < wordSize ∧
        Disjoint (Set.Ico start (start + size)) vmm.addresses
  | .removeRange start size => 0 < size ∧ start + size < wordSize

/-- The table after a call. -/
def after (vmm : Vmm) : VmmCall → Vmm
  | .alloc size => (vmm.vmmAlloc size 0).2.2
  | .addRange start size => (vmm.vmmAddRange start size).2
  | .removeRange start size => (vmm.vmmRemoveRange start size).2

/-- A call succeeds and has its effect on the set of addresses, or fails and changes
nothing; an allocation fails only when no run is long enough, and a removal fails with
`K_NOT_FOUND` exactly when the range is not all there. -/
def Effect (vmm : Vmm) : VmmCall → Prop
  | .alloc size => ∀ vaddr,
      (∃ start t, vmm.vmmAlloc size vaddr = (.kSuccess, start, t) ∧
          IsLeast {x | Set.Ico x (x + size) ⊆ vmm.addresses} start ∧
          t.addresses = vmm.addresses \ Set.Ico start (start + size)) ∨
        ∃ status, status ≠ .kSuccess ∧ vmm.vmmAlloc size vaddr = (status, vaddr, vmm) ∧
          ∀ x, ¬ Set.Ico x (x + size) ⊆ vmm.addresses
  | .addRange start size =>
      (∃ t, vmm.vmmAddRange start size = (.kSuccess, t) ∧
          t.addresses = vmm.addresses ∪ Set.Ico start (start + size)) ∨
        ∃ status, status ≠ .kSuccess ∧ vmm.vmmAddRange start size = (status, vmm)
  | .removeRange start size =>
      (∃ t, vmm.vmmRemoveRange start size = (.kSuccess, t) ∧
          Set.Ico start (start + size) ⊆ vmm.addresses ∧
          t.addresses = vmm.addresses \ Set.Ico start (start + size)) ∨
        vmm.vmmRemoveRange start size = (.kNotFound, vmm) ∧
          ¬ Set.Ico start (start + size) ⊆ vmm.addresses ∨
        ∃ status, status ≠ .kSuccess ∧ status ≠ .kNotFound ∧
          vmm.vmmRemoveRange start size = (status, vmm) ∧
          Set.Ico start (start + size) ⊆ vmm.addresses

/-- An allocation cuts the front off one block. -/
theorem Compact.alloc_cases {vmm : Vmm} (h : vmm.Compact) {size : Nat} (hsize : 0 < size)
    (vaddr : Nat) :
    (∃ start t, vmm.vmmAlloc size vaddr = (.kSuccess, start, t) ∧
        IsLeast {x | Set.Ico x (x + size) ⊆ vmm.addresses} start ∧ t.Compact ∧ vmm.Within t ∧
        t.addresses = vmm.addresses \ Set.Ico start (start + size)) ∨
      vmm.vmmAlloc size vaddr = (.kOutOfResource, vaddr, vmm) ∧
        ∀ x, ¬ Set.Ico x (x + size) ⊆ vmm.addresses := by
  rcases h.alloc hsize vaddr with ⟨⟨start, t⟩, heq, hleast, -, hremove⟩ | hfail
  · obtain ⟨hcompact, ⟨-, -, haddresses⟩ | ⟨hstatus, -⟩ | ⟨hstatus, -⟩⟩ :=
      hremove.addresses h hsize
    · exact Or.inl ⟨start, t, heq, hleast, hcompact, hremove.within, haddresses⟩
    · cases hstatus
    · cases hstatus
  · exact Or.inr hfail

theorem Compact.effect {vmm : Vmm} (h : vmm.Compact) {call : VmmCall} (hcall : vmm.Admits call) :
    vmm.Effect call := by
  cases call with
  | alloc size =>
      intro vaddr
      rcases h.alloc_cases hcall vaddr with ⟨start, t, heq, hleast, -, -, haddresses⟩ | hfail
      · exact Or.inl ⟨start, t, heq, hleast, haddresses⟩
      · exact Or.inr ⟨.kOutOfResource, nofun, hfail⟩
  | addRange start size =>
      obtain ⟨hsize, hwrap, hdisjoint⟩ := hcall
      rcases (h.addRange hsize hwrap hdisjoint).addresses with ⟨hstatus, heq⟩ | ⟨hstatus, heq⟩
      · exact Or.inl ⟨_, Prod.ext hstatus rfl, heq⟩
      · exact Or.inr ⟨_, hstatus, Prod.ext rfl heq⟩
  | removeRange start size =>
      obtain ⟨hsize, hwrap⟩ := hcall
      rcases ((h.removeRange hwrap).addresses h hsize).2 with
        ⟨hstatus, hsub, heq⟩ | ⟨hstatus, hsub, heq⟩ | ⟨hstatus, hsub, heq⟩
      · exact Or.inl ⟨_, Prod.ext hstatus rfl, hsub, heq⟩
      · exact Or.inr (Or.inl ⟨Prod.ext hstatus heq, hsub⟩)
      · exact Or.inr (Or.inr ⟨.kOutOfResource, nofun, nofun, Prod.ext hstatus heq, hsub⟩)

theorem Compact.after {vmm : Vmm} (h : vmm.Compact) {call : VmmCall} (hcall : vmm.Admits call) :
    (vmm.after call).Compact ∧ vmm.Within (vmm.after call) := by
  cases call with
  | alloc size =>
      rcases h.alloc_cases hcall 0 with ⟨start, t, heq, -, hcompact, hin, -⟩ | ⟨heq, -⟩
      · rw [Vmm.after, heq]
        exact ⟨hcompact, hin⟩
      · rw [Vmm.after, heq]
        exact ⟨h, rfl, fun _ _ => rfl⟩
  | addRange start size =>
      obtain ⟨hsize, hwrap, hdisjoint⟩ := hcall
      have hadd := h.addRange hsize hwrap hdisjoint
      exact ⟨hadd.compact h hsize hwrap, hadd.within⟩
  | removeRange start size =>
      obtain ⟨hsize, hwrap⟩ := hcall
      have hremove := h.removeRange hwrap
      exact ⟨(hremove.addresses h hsize).1, hremove.within⟩

theorem compact_vmmStructInit (blocks : Nat → VmmBlock) (totalBlocks : Nat) :
    (vmmStructInit blocks totalBlocks).Compact :=
  ⟨.nil, nofun, Nat.zero_le _⟩

end Vmm

/-- Runs of one table from `vmm_struct_init` on. -/
def vmmSystem (blocks : Nat → VmmBlock) (totalBlocks : Nat) : System Vmm VmmCall where
  init vmm := vmm = Vmm.vmmStructInit blocks totalBlocks
  step vmm call t := t = vmm.after call

/-- In every state of a run the table is compact and within its array, and every further
call has exactly its effect. -/
theorem vmmSystem_effect {blocks : Nat → VmmBlock} {totalBlocks : Nat} {vmm : Vmm}
    (hreach : (vmmSystem blocks totalBlocks).ReachableWhen Vmm.Admits vmm) :
    vmm.Compact ∧ vmm.totalBlocks = totalBlocks ∧
      (∀ j, totalBlocks ≤ j → vmm.blocks j = blocks j) ∧
      ∀ call, vmm.Admits call → vmm.Effect call := by
  have hinv : vmm.Compact ∧ (Vmm.vmmStructInit blocks totalBlocks).Within vmm := by
    refine hreach.invariant (P := fun vmm => vmm.Compact ∧
      (Vmm.vmmStructInit blocks totalBlocks).Within vmm) ?_ ?_
    · rintro _ rfl
      exact ⟨Vmm.compact_vmmStructInit _ _, rfl, fun _ _ => rfl⟩
    · rintro vmm call _ ⟨hcompact, hin⟩ hcall rfl
      obtain ⟨hcompact', hin'⟩ := hcompact.after hcall
      exact ⟨hcompact', hin.trans hin'⟩
  exact ⟨hinv.1, hinv.2.1, hinv.2.2, fun _ hcall => hinv.1.effect hcall⟩

/-- The first allocation from a fresh table of user addresses. -/
theorem vmmStructInit_alloc :
    ((Vmm.vmmStructInit (fun _ => ⟨0, 0⟩) 1024).after (.addRange 0x800000 0x7fffff600000)).Effect
      (.alloc pgSize) := by
  have hinit : (vmmSystem (fun _ => ⟨0, 0⟩) 1024).ReachableWhen Vmm.Admits
      (Vmm.vmmStructInit (fun _ => ⟨0, 0⟩) 1024) := .init rfl
  have hadmits : (Vmm.vmmStructInit (fun _ => ⟨0, 0⟩) 1024).Admits
      (.addRange 0x800000 0x7fffff600000) := by
    refine ⟨by decide, by decide, ?_⟩
    have hempty : (Vmm.vmmStructInit (fun _ => ⟨0, 0⟩) 1024).addresses = ∅ := Range.cover_nil
    rw [hempty]
    exact Set.disjoint_empty _
  exact (vmmSystem_effect (hinit.step hadmits rfl)).2.2.2 (.alloc pgSize) (by decide : 0 < pgSize)

end ClayFigure
