/-
# The frames of a process

A page fault gives a page a frame, and `kern_free_page` takes it away again. The frame is held as
long as the page is mapped, and no longer.
-/

import ClayFigure.Task.ProcTables

namespace ClayFigure

open ClayFigure.Math

namespace BlockState

open Allocator

variable {s t : BlockState} {contents : Group → List Nat} {group : Nat → Group}
  {pml4t table word : Nat} {i : Fin 512}

/-! ## Frames -/

/-- A frame is taken, or there is none. -/
theorem allocPhysicalPage_spec (h : BlockInv s contents group) {status : Status}
    {addr : Option Nat} (heq : s.allocPhysicalPage 1 = some (status, addr, t)) :
    BlockInv t contents group ∧
      ((∃ f, status = .kSuccess ∧ addr = some f ∧ f % pgSize = 0 ∧ f < 2 ^ 64 ∧
          f / pgSize ∈ s.alloc.mem.freeFrames ∧ s.Acts t ∅ {.frames f 1}) ∨
        status = .kNomem ∧ s.Acts t ∅ ∅) := by
  unfold BlockState.allocPhysicalPage at heq
  obtain ⟨r, halloc, heq⟩ := Option.bind_eq_some_iff.mp heq
  simp only [Option.pure_def, Option.some.injEq, Prod.mk.injEq] at heq
  obtain ⟨rfl, rfl, rfl⟩ := heq
  rcases s.alloc.mem.allocPhysicalPage_one with ⟨-, a, hno⟩ | ⟨-, f, m, hf, hlt, hone, -⟩
  · rw [halloc] at hno
    obtain rfl := Option.some.inj hno
    have hframe : frameStep ⟨s.alloc.mem, s.others⟩ (.alloc 1) =
        some ⟨s.alloc.mem, s.others⟩ := by
      simp only [frameStep, halloc]
    exact ⟨h.frames hframe,
      Or.inr ⟨rfl, .of_held rfl (Set.empty_subset _) fun _ _ _ _ _ => rfl⟩⟩
  · rw [halloc] at hone
    obtain rfl := Option.some.inj hone
    have hframe : frameStep ⟨s.alloc.mem, s.others⟩ (.alloc 1) =
        some ⟨m, (f * pgSize, 1) :: s.others⟩ := by
      simp only [frameStep, halloc]
    refine ⟨h.frames hframe, Or.inl ⟨f * pgSize, rfl, rfl, Nat.mul_mod_left _ _, ?_, ?_,
      .of_insert ?_ (fun hin => ?_) fun _ _ _ _ _ => rfl⟩⟩
    · unfold pgSize
      omega
    · rwa [Nat.mul_div_cancel _ (by decide)]
    · ext r
      cases r <;> simp [held]
    · -- what is held is not free
      have hused := h.rep.frames.used _ hin
      rw [allocFrames_mk, Nat.Ico_succ_singleton, Finset.disjoint_singleton_left] at hused
      exact hused hf

/-- Another state of the frame allocator, and other frames that are held. -/
def withFrames (s : BlockState) (mem : Mem) (others : List (Nat × Nat)) : BlockState :=
  { s with alloc := { s.alloc with mem }, others }

/-- A frame that is held is given back. -/
theorem freePhysicalPage_spec (h : BlockInv s contents group) {f : Nat} (hf : (f, 1) ∈ s.others) :
    ∃ mem, s.freePhysicalPage f 1 = some (s.withFrames mem (s.others.erase (f, 1))) ∧
      blockStep s (.frames (.free f 1)) = some (s.withFrames mem (s.others.erase (f, 1))) ∧
      BlockInv (s.withFrames mem (s.others.erase (f, 1))) contents group ∧
      mem.freeFrames = insert (f / pgSize) s.alloc.mem.freeFrames := by
  obtain ⟨mem, heq, -, hframes, -⟩ := h.rep.frames.freePhysicalPage_live hf
  simp only at heq hframes
  have hstep : frameStep ⟨s.alloc.mem, s.others⟩ (.free f 1) =
      some ⟨mem, s.others.erase (f, 1)⟩ := by
    simp only [frameStep, hf, if_true, heq]
  have hinv := h.frames hstep
  refine ⟨mem, ?_, ?_, ?_, ?_⟩
  · simp [BlockState.freePhysicalPage, heq, withFrames]
  · simp [blockStep, hstep, withFrames]
  · unfold withFrames
    exact hinv
  · rw [hframes, allocFrames, Nat.Ico_succ_singleton, Finset.union_comm]
    rfl

/-- A frame that is held is none of the allocator of blocks. -/
theorem not_mem_pages (h : BlockInv s contents group) {f : Nat} (hf : (f, 1) ∈ s.others)
    (halign : f % pgSize = 0) : f / pgSize ∉ s.pages := by
  have hdiv : f / pgSize * pgSize = f := Nat.div_mul_cancel (Nat.dvd_of_mod_eq_zero halign)
  have hheld : (f / pgSize * pgSize, 1) ∈ s.others := by rwa [hdiv]
  intro hpage
  obtain ⟨-, -, -, -, hapart⟩ := FrameInv.cons_iff.mp (h.rep.page _ hpage)
  refine hapart _ hheld ?_
  rw [allocFrames_mk, Nat.Ico_succ_singleton]
  exact Finset.mem_singleton_self _

theorem store_withFrames (s : BlockState) (mem : Mem) (others : List (Nat × Nat)) (a word : Nat) :
    (s.store a word).withFrames mem others = (s.withFrames mem others).store a word := rfl

/-- `page_unmap` does not look at the frame allocator. -/
theorem pageUnmap_withFrames (s : BlockState) (mem : Mem) (others : List (Nat × Nat))
    (vaddr : Nat) : (s.withFrames mem others).pageUnmap pml4t vaddr =
      (s.pageUnmap pml4t vaddr).map fun t => t.withFrames mem others := by
  have hload (a : Nat) : (s.withFrames mem others).load a = s.load a := rfl
  unfold BlockState.pageUnmap
  simp only [hload]
  split_ifs
  · rfl
  · rfl
  · rfl
  · rw [Option.map_some, store_withFrames]

/-! ## What a process does -/

/-- What is held is held once. -/
theorem others_nodup (h : BlockInv s contents group) : s.others.Nodup := by
  refine h.rep.frames.disjoint.imp_of_mem fun {a b} ha hb hdisj => ?_
  rintro rfl
  have hpos := h.rep.frames.nonempty a ha
  rw [disjoint_self, Finset.bot_eq_empty, allocFrames, Finset.Ico_eq_empty_iff] at hdisj
  omega

/-- A frame that is given back is not held any more. -/
theorem acts_erase (h : BlockInv s contents group) {f : Nat} (mem : Mem) :
    s.Acts (s.withFrames mem (s.others.erase (f, 1))) {.frames f 1} ∅ := by
  refine .of_erase ?_ fun _ _ _ _ _ => rfl
  ext r
  cases r with
  | block b g => simp [held, withFrames]
  | frames a n =>
      simp only [held, withFrames, Set.mem_ofPred_eq, Set.mem_sdiff, Set.mem_singleton_iff,
        Resource.frames.injEq, (others_nodup h).mem_erase_iff, ne_eq, Prod.mk.injEq]
      exact and_comm

/-- With three frames left a page can be mapped. -/
theorem mapFrame_total (h : BlockInv s contents group) (pml4t vaddr : Nat)
    (hfree : 3 ≤ s.alloc.mem.freeFrames.card) :
    ∃ f t, s.mapFrame pml4t vaddr = some (some f, t) := by
  rcases s.alloc.mem.allocPhysicalPage_one with ⟨hno, -⟩ | ⟨-, f, m, hf, -, hone, hframes⟩
  · have hcard := card_of_noFrame h hno
    omega
  · obtain ⟨status, addr, u, halloc, hstatus, haddr, hmem⟩ : ∃ status addr u,
        s.allocPhysicalPage 1 = some (status, addr, u) ∧ status = .kSuccess ∧
          addr = some (f * pgSize) ∧ u.alloc.mem = m := by
      simp only [BlockState.allocPhysicalPage, hone, Option.bind_eq_bind, Option.bind_some]
      exact ⟨_, _, _, rfl, rfl, rfl, rfl⟩
    obtain ⟨hinv, -⟩ := allocPhysicalPage_spec h halloc
    have hcard : 2 ≤ u.alloc.mem.freeFrames.card := by
      have hle := Finset.card_le_card_sdiff_add_card (s := s.alloc.mem.freeFrames) (t := {f})
      rw [Finset.card_singleton] at hle
      rw [hmem, hframes]
      omega
    obtain ⟨t, ht⟩ := pageMap_total hinv pml4t (f * pgSize) vaddr hcard
    subst hstatus haddr
    refine ⟨f * pgSize, t, ?_⟩
    simp [BlockState.mapFrame, halloc, ht]

namespace Owns

variable {r : Option Nat} {vaddr : Nat}

/-- A frame is mapped, if there is one. -/
theorem mapFrame (h : s.Owns pml4t) (hinv : BlockInv s contents group) (hvaddr : vaddr < 2 ^ 47)
    (hempty : (s.view pml4t).walk pml4t (Memory.indexPath vaddr) = none)
    (heq : s.mapFrame pml4t vaddr = some (r, t)) :
    ∃ contents' group', BlockInv t contents' group' ∧ t.Owns pml4t ∧
      s.Acts t (s.owned pml4t) (t.owned pml4t) ∧
      (∀ f, r = some f → f / pgSize ∈ s.alloc.mem.freeFrames) ∧
      ∀ path, path.length = 3 → (t.view pml4t).walk pml4t path =
        if path = Memory.indexPath vaddr then r else (s.view pml4t).walk pml4t path := by
  unfold BlockState.mapFrame at heq
  obtain ⟨⟨status, addr, u⟩, halloc, heq⟩ := Option.bind_eq_some_iff.mp heq
  obtain ⟨hinv', ⟨f, rfl, rfl, halign, hlt, hfree, hacts⟩ | ⟨rfl, hacts⟩⟩ :=
    allocPhysicalPage_spec hinv halloc
  · simp only at heq
    obtain ⟨w, hmap, heq⟩ := Option.bind_eq_some_iff.mp heq
    simp only [Option.pure_def, Option.some.injEq, Prod.mk.injEq] at heq
    obtain ⟨rfl, rfl⟩ := heq
    obtain ⟨hu, howned, hwalk⟩ := h.of_acts hacts (Set.disjoint_empty _)
    have hnew : .frames f 1 ∉ s.held :=
      Set.disjoint_left.mp hacts.fresh ⟨rfl, Set.notMem_empty _⟩
    have hheld : .frames f 1 ∈ u.held := by
      rw [hacts.after]
      exact Or.inr rfl
    have hempty' := (hwalk (Memory.indexPath vaddr) le_rfl).trans hempty
    obtain ⟨contents', group', hinv'', hw, hmap, hwalks⟩ := hu.pageMap hinv' hvaddr halign hlt hheld
      (fun hin => hnew (h.owned_subset (howned ▸ hin))) hempty' hmap
    refine ⟨contents', group', hinv'', hw, ?_, ?_, fun path hpath => ?_⟩
    · have hframe := hacts.frame h.owned_subset (Set.disjoint_empty _)
      rw [Set.empty_union, Set.union_comm, ← howned] at hframe
      rw [← howned]
      exact hframe.trans hmap
    · intro g hg
      exact Option.some.inj hg ▸ hfree
    · rw [hwalks path hpath, hwalk path hpath.le]
  · simp only [Option.pure_def, Option.some.injEq, Prod.mk.injEq] at heq
    obtain ⟨rfl, rfl⟩ := heq
    obtain ⟨hu, howned, hwalk⟩ := h.of_acts hacts (Set.disjoint_empty _)
    refine ⟨contents, group, hinv', hu, ?_, nofun, fun path hpath => ?_⟩
    · have hframe := hacts.frame h.owned_subset (Set.disjoint_empty _)
      rw [Set.empty_union] at hframe
      rwa [howned]
    · rw [hwalk path hpath.le]
      split
      · next heq => rw [heq, hempty]
      · rfl

/-- Reading past the kernel's half makes no difference to an address of a user. -/
theorem walk_memory (h : s.Owns pml4t) (hvaddr : vaddr < 2 ^ 47) :
    s.alloc.memory.walk pml4t (Memory.indexPath vaddr) =
      (s.view pml4t).walk pml4t (Memory.indexPath vaddr) := by
  have hword {T : Nat} {j : Fin 512} (hT : T % ptSize = 0) (huser : UserEntry pml4t T j) :
      s.alloc.memory.tableWord T j = (s.view pml4t).tableWord T j :=
    (if_neg (huser.out hT h.aligned)).symm
  have hword₀ := hword h.aligned fun _ => UserHalf.index (a := vaddr) hvaddr
  unfold Memory.indexPath
  cases hlink₁ : entryLink ((s.view pml4t).tableWord pml4t (Memory.pml4tIndex vaddr)) with
  | none =>
      rw [Memory.walk_of_entryLink_none hlink₁, Memory.walk_of_entryLink_none (hword₀ ▸ hlink₁)]
  | some table₁ =>
      have hwalk₁ : (s.view pml4t).walk pml4t [Memory.pml4tIndex vaddr] = some table₁ :=
        Memory.walk_of_entryLink hlink₁ []
      have hword₁ := hword (h.tables _ ⟨_, by simp, hwalk₁⟩).aligned
        (h.userEntry (by simp) hwalk₁ (by simp) (Memory.pdptIndex vaddr))
      rw [Memory.walk_of_entryLink hlink₁, Memory.walk_of_entryLink (hword₀ ▸ hlink₁)]
      cases hlink₂ : entryLink ((s.view pml4t).tableWord table₁ (Memory.pdptIndex vaddr)) with
      | none =>
          rw [Memory.walk_of_entryLink_none hlink₂,
            Memory.walk_of_entryLink_none (hword₁ ▸ hlink₂)]
      | some table₂ =>
          have hwalk₂ : (s.view pml4t).walk pml4t
              [Memory.pml4tIndex vaddr, Memory.pdptIndex vaddr] = some table₂ := by
            rw [Memory.walk_of_entryLink hlink₁, Memory.walk_of_entryLink hlink₂]
            rfl
          have hword₂ := hword (h.tables _ ⟨_, by simp, hwalk₂⟩).aligned
            (h.userEntry (by simp) hwalk₂ (by simp) (Memory.pdtIndex vaddr))
          rw [Memory.walk_of_entryLink hlink₂, Memory.walk_of_entryLink (hword₁ ▸ hlink₂)]
          unfold Memory.walk tableAt
          rw [hword₂]
          rfl

/-- A frame that is mapped is a frame, and not `NULL`. -/
theorem frame_bounds (h : s.Owns pml4t) (hinv : BlockInv s contents group)
    {path : List (Fin 512)} {f : Nat} (hpath : path.length = 3)
    (hf : (s.view pml4t).walk pml4t path = some f) :
    f % pgSize = 0 ∧ 0 < f ∧ f < 16384 * pgSize := by
  have hheld := h.pages path f hpath hf
  have halign := hinv.rep.frames.aligned _ hheld
  have hin := hinv.rep.frames.inside _ hheld
  have hcap := s.alloc.mem.btmpBytesLen_le
  simp only at halign hin
  unfold pgSize at *
  omega

/-- `to_physical_address` of a user's address. -/
theorem toPhysicalAddress_eq (h : s.Owns pml4t) (hinv : BlockInv s contents group)
    (hvaddr : vaddr < 2 ^ 47) :
    s.alloc.memory.toPhysicalAddress pml4t vaddr =
      match (s.view pml4t).walk pml4t (Memory.indexPath vaddr) with
      | none => 0
      | some f => f + vaddr % pgSize := by
  have hlen : (Memory.indexPath vaddr).length = 3 := rfl
  rw [Memory.toPhysicalAddress_eq, h.walk_memory hvaddr]
  cases hf : (s.view pml4t).walk pml4t (Memory.indexPath vaddr) with
  | none => rfl
  | some f =>
      obtain ⟨-, -, hlt⟩ := h.frame_bounds hinv hlen hf
      apply add64_of_lt
      unfold pgSize wordSize at *
      omega

/-- `page_unmap` of a page that is mapped clears the entry of its page directory. -/
theorem pageUnmap_eq (h : s.Owns pml4t) (hvaddr : vaddr < 2 ^ 47) {table f : Nat}
    (htable : (s.view pml4t).walk pml4t [Memory.pml4tIndex vaddr, Memory.pdptIndex vaddr] =
      some table)
    (hf : (s.view pml4t).walk pml4t (Memory.indexPath vaddr) = some f) :
    s.pageUnmap pml4t vaddr = some (s.store
      (physToVirt (table + 8 * (Memory.pdtIndex vaddr : Nat)))
      ((s.view pml4t).tableWord table (Memory.pdtIndex vaddr) &&& 0xfffffffffffffffe)) := by
  have hword : vaddr < 2 ^ 64 := hvaddr.trans (by decide)
  have hroot : (s.view pml4t).walk pml4t [] = some pml4t := rfl
  obtain ⟨table₁, hwalk₁, -⟩ := Option.bind_eq_some_iff.mp
    ((Memory.walk_concat (s.view pml4t) pml4t [Memory.pml4tIndex vaddr] _).symm.trans htable)
  obtain ⟨hpml4e, hentry₁⟩ := Memory.tableWord_of_walk (i := Memory.pml4tIndex vaddr) hroot hwalk₁
  obtain ⟨hpdpte, hentry₂⟩ := Memory.tableWord_of_walk (i := Memory.pdptIndex vaddr) hwalk₁ htable
  obtain ⟨hpde, -⟩ := Memory.tableWord_of_walk (i := Memory.pdtIndex vaddr) htable hf
  have huser : UserEntry pml4t pml4t (Memory.pml4tIndex vaddr) :=
    fun _ => UserHalf.index (a := vaddr) hvaddr
  have huser₁ := h.userEntry (by simp) hwalk₁ (by simp) (Memory.pdptIndex vaddr)
  have huser₂ := h.userEntry (by simp) htable (by simp) (Memory.pdtIndex vaddr)
  have hload₀ := load_entry h.root h.aligned huser
  have hload₁ := load_entry (h.tables _ ⟨_, by simp, hwalk₁⟩) h.aligned huser₁
  have hload₂ := load_entry (h.tables _ ⟨_, by simp, htable⟩) h.aligned huser₂
  have hentry₀ : physToVirt pml4t + 8 * addrPml4tIndex vaddr =
      physToVirt (pml4t + 8 * (Memory.pml4tIndex vaddr : Nat)) :=
    (h.root.entry_virt (Memory.pml4tIndex vaddr)).symm
  have hpdpt : addrPdptIndex vaddr = (Memory.pdptIndex vaddr : Nat) := rfl
  have hpdt : addrPdtIndex vaddr = (Memory.pdtIndex vaddr : Nat) := rfl
  unfold BlockState.pageUnmap
  simp only [Memory.addrPml4tIndex_pageMask hword, Memory.addrPdptIndex_pageMask hword,
    Memory.addrPdtIndex_pageMask hword, hpdpt, hpdt]
  rw [hentry₀, hload₀, if_neg hpml4e, hentry₁, hload₁, if_neg hpdpte, hentry₂, hload₂, if_neg hpde]

/-- `free_physical_page` does not pass an address that is no frame. -/
theorem freePhysicalPage_bad {addr : Nat} (hbad : addr = 0 ∨ addr % pgSize ≠ 0) :
    s.freePhysicalPage addr 1 = none := by
  have hbad : addr = 0 ∨ addr &&& 0x1fffff ≠ 0 :=
    hbad.imp_right fun hne => mt Mem.and_mask_eq_zero_iff.mp hne
  unfold BlockState.freePhysicalPage Mem.freePhysicalPage
  rw [if_neg Nat.one_ne_zero, if_pos hbad]
  rfl

/-- A page that is mapped can be unmapped. -/
theorem unmapFrame_total (h : s.Owns pml4t) (hinv : BlockInv s contents group)
    (hvaddr : vaddr < 2 ^ 47) (haligned : vaddr % pgSize = 0) {f : Nat}
    (hf : (s.view pml4t).walk pml4t (Memory.indexPath vaddr) = some f) :
    ∃ t, s.unmapFrame pml4t vaddr = some t := by
  obtain ⟨mem, hfree, -⟩ := freePhysicalPage_spec hinv (h.pages _ f rfl hf)
  obtain ⟨table, htable, -⟩ := Option.bind_eq_some_iff.mp
    ((Memory.walk_concat (s.view pml4t) pml4t
      [Memory.pml4tIndex vaddr, Memory.pdptIndex vaddr] _).symm.trans hf)
  have hunmap := h.pageUnmap_eq hvaddr htable hf
  have hphys := h.toPhysicalAddress_eq hinv hvaddr
  rw [hf] at hphys
  simp only [haligned, Nat.add_zero] at hphys
  unfold BlockState.unmapFrame
  simp only [hphys, hfree, Option.bind_eq_bind, Option.bind_some, pageUnmap_withFrames, hunmap,
    Option.map_some]
  exact ⟨_, rfl⟩

/-- What `kern_free_page` frees is a page that is mapped. -/
theorem mapped_of_unmapFrame (h : s.Owns pml4t) (hinv : BlockInv s contents group)
    (hvaddr : vaddr < 2 ^ 47) (heq : s.unmapFrame pml4t vaddr = some t) : ∃ f table,
      (s.view pml4t).walk pml4t (Memory.indexPath vaddr) = some f ∧
      (s.view pml4t).walk pml4t [Memory.pml4tIndex vaddr, Memory.pdptIndex vaddr] = some table ∧
      s.alloc.memory.toPhysicalAddress pml4t vaddr = f := by
  have hlen : (Memory.indexPath vaddr).length = 3 := rfl
  have hphys := h.toPhysicalAddress_eq hinv hvaddr
  obtain ⟨u, hfree, -⟩ := Option.bind_eq_some_iff.mp heq
  cases hf : (s.view pml4t).walk pml4t (Memory.indexPath vaddr) with
  | none =>
      rw [hf] at hphys
      rw [freePhysicalPage_bad (Or.inl hphys)] at hfree
      cases hfree
  | some f =>
      rw [hf] at hphys
      simp only at hphys
      obtain ⟨halign, -, -⟩ := h.frame_bounds hinv hlen hf
      obtain ⟨table, htable, -⟩ := Option.bind_eq_some_iff.mp
        ((Memory.walk_concat (s.view pml4t) pml4t
          [Memory.pml4tIndex vaddr, Memory.pdptIndex vaddr] _).symm.trans hf)
      refine ⟨f, table, rfl, htable, ?_⟩
      by_cases hoffset : vaddr % pgSize = 0
      · rw [hphys, hoffset, Nat.add_zero]
      · have hbad : s.alloc.memory.toPhysicalAddress pml4t vaddr % pgSize ≠ 0 := by
          rw [hphys]
          unfold pgSize at *
          omega
        rw [freePhysicalPage_bad (Or.inr hbad)] at hfree
        cases hfree

/-- A page is unmapped, and its frame given back. -/
theorem unmapFrame (h : s.Owns pml4t) (hinv : BlockInv s contents group) (hvaddr : vaddr < 2 ^ 47)
    (heq : s.unmapFrame pml4t vaddr = some t) :
    BlockInv t contents group ∧ t.Owns pml4t ∧ s.Acts t (s.owned pml4t) (t.owned pml4t) ∧ ∃ f,
      (s.view pml4t).walk pml4t (Memory.indexPath vaddr) = some f ∧
      t.alloc.mem.freeFrames = insert (f / pgSize) s.alloc.mem.freeFrames ∧
      ∀ path, path.length = 3 → (t.view pml4t).walk pml4t path =
        if path = Memory.indexPath vaddr then none else (s.view pml4t).walk pml4t path := by
  have hlen : (Memory.indexPath vaddr).length = 3 := rfl
  obtain ⟨f, table, hf, htable, hphys⟩ := h.mapped_of_unmapFrame hinv hvaddr heq
  obtain ⟨mem, hfree, -, hinv', hframes⟩ := freePhysicalPage_spec hinv (h.pages _ f hlen hf)
  obtain ⟨word, hlink, hword, hunmap⟩ : ∃ word, entryLink word = none ∧ word < 2 ^ 64 ∧
      s.pageUnmap pml4t vaddr = some (s.store
        (physToVirt (table + 8 * (Memory.pdtIndex vaddr : Nat))) word) :=
    ⟨_, entryLink_clear _, Nat.lt_of_le_of_lt Nat.and_le_right (by decide),
      h.pageUnmap_eq hvaddr htable hf⟩
  obtain ⟨hw, htables, hwalks⟩ := h.writePde (i := Memory.pdtIndex vaddr) rfl htable
    hword fun g hg => by
      rw [hlink] at hg
      cases hg
  rw [hlink] at hwalks
  have hstore := acts_store hinv (h.tables _ ⟨_, by simp, htable⟩)
    (Memory.pdtIndex vaddr) word h.owned_subset (owned_of_isTable ⟨_, by simp, htable⟩)
  have hinvStore : BlockInv (s.store (physToVirt (table + 8 * (Memory.pdtIndex vaddr : Nat))) word)
      contents group := inv_bytes hinv _
  have hinvErase : BlockInv ((s.store (physToVirt (table + 8 * (Memory.pdtIndex vaddr : Nat)))
      word).withFrames mem (s.others.erase (f, 1))) contents group := by
    rw [store_withFrames]
    exact inv_bytes hinv' _
  have hothers := store_others s (physToVirt (table + 8 * (Memory.pdtIndex vaddr : Nat))) word
  -- the store is a state of its own from here on
  generalize s.store (physToVirt (table + 8 * (Memory.pdtIndex vaddr : Nat))) word = w
    at hunmap hw htables hwalks hstore hinvStore hinvErase hothers
  have ht : t = w.withFrames mem (w.others.erase (f, 1)) := by
    obtain ⟨u, hu, heq⟩ := Option.bind_eq_some_iff.mp heq
    rw [hphys, hfree, Option.some.injEq] at hu
    rw [← hu, pageUnmap_withFrames, hunmap, Option.map_some, Option.some.injEq] at heq
    rw [hothers]
    exact heq.symm
  rw [← hothers, ← ht] at hinvErase
  have hindex (path : List (Fin 512)) : path =
      [Memory.pml4tIndex vaddr, Memory.pdptIndex vaddr] ++ [Memory.pdtIndex vaddr] ↔
      path = Memory.indexPath vaddr := Iff.rfl
  simp only [hindex] at hwalks
  have howned : s.owned pml4t = {.frames f 1} ∪ w.owned pml4t := by
    ext r
    cases r with
    | block b g => simp [mem_owned_block, htables]
    | frames g n =>
        simp only [mem_owned_frames, Set.singleton_union, Set.mem_insert_iff,
          Resource.frames.injEq]
        constructor
        · rintro ⟨rfl, path, hpath, hg⟩
          by_cases hsame : path = Memory.indexPath vaddr
          · rw [hsame, hf] at hg
            exact Or.inl ⟨(Option.some.inj hg).symm, rfl⟩
          · exact Or.inr ⟨rfl, path, hpath, by rw [hwalks path hpath, if_neg hsame, hg]⟩
        · rintro (⟨rfl, rfl⟩ | ⟨rfl, path, hpath, hg⟩)
          · exact ⟨rfl, _, hlen, hf⟩
          · rw [hwalks path hpath] at hg
            split at hg
            · cases hg
            · exact ⟨rfl, path, hpath, hg⟩
  have hapart : .frames f 1 ∉ w.owned pml4t := by
    rintro ⟨-, path, hpath, hg⟩
    rw [hwalks path hpath] at hg
    split at hg
    · cases hg
    · next hne => exact hne (h.apart path _ f hpath hlen hg hf)
  have hacts := (acts_erase (f := f) hinvStore mem).frame hw.owned_subset
    (Set.disjoint_singleton_right.mpr hapart)
  obtain ⟨ht', howned', hsame⟩ := hw.of_acts (acts_erase (f := f) hinvStore mem)
    (Set.disjoint_singleton_right.mpr hapart)
  rw [← ht] at hacts ht' howned' hsame
  rw [Set.empty_union, ← howned] at hacts
  refine ⟨hinvErase, ht', ?_, f, hf, ?_, fun path hpath => ?_⟩
  · rw [howned']
    exact hstore.trans hacts
  · rw [ht]
    exact hframes
  · rw [hsame path hpath.le, hwalks path hpath]

end Owns

end BlockState

end ClayFigure
