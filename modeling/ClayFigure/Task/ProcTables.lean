/-
# The page tables of a process

The tables a process is translated by are those below the lower half of its directory; the upper
half leads to tables of the kernel. A process owns them as blocks of the allocator, and a frame for
every page that is mapped. Mapping and unmapping keep this, and so does all that the rest of the
kernel does with its own blocks and frames.
-/

import ClayFigure.Mem.TableOwner
import ClayFigure.Task.PageDir

namespace ClayFigure

open ClayFigure.Math

namespace Memory

/-- Memory with nothing in the kernel's half of a directory. -/
def userHalf (mem : Memory) (pml4t : Nat) : Memory := fun p =>
  if pml4t + ptSize / 2 ≤ p ∧ p < pml4t + ptSize then 0 else mem p

section Congr

variable {mem mem' : Memory} {pml4t : Nat}

/-- Two memories that agree on the tables of a tree have the same tree. -/
theorem walk_congr (hsame : ∀ table, mem.IsTable pml4t table → ∀ i,
      mem'.tableWord table i = mem.tableWord table i) {path : List (Fin 512)}
    (hpath : path.length ≤ 3) : mem'.walk pml4t path = mem.walk pml4t path :=
  tableAt_congr hsame hpath

theorem isTable_congr (hsame : ∀ table, mem.IsTable pml4t table → ∀ i,
      mem'.tableWord table i = mem.tableWord table i) {table : Nat} :
    mem'.IsTable pml4t table ↔ mem.IsTable pml4t table :=
  exists_congr fun _ => and_congr_right fun hlen => by rw [tableAt_congr hsame (by omega)]

theorem PageTree.congr (h : PageTree mem pml4t) (hsame : ∀ table, mem.IsTable pml4t table → ∀ i,
      mem'.tableWord table i = mem.tableWord table i) : PageTree mem' pml4t := by
  refine ⟨h.aligned, fun path path' table hlen hlen' hwalk hwalk' => ?_⟩
  rw [tableAt_congr hsame (by omega)] at hwalk hwalk'
  exact h.unshared path path' table hlen hlen' hwalk hwalk'

/-- What the last entry of a walk holds. -/
theorem tableWord_of_walk {path : List (Fin 512)} {i : Fin 512} {table next : Nat}
    (hwalk : mem.walk pml4t path = some table) (hnext : mem.walk pml4t (path ++ [i]) = some next) :
    mem.tableWord table i &&& pgP ≠ 0 ∧ mem.tableWord table i &&& entryMask = next :=
  entry_of_walk hwalk hnext

end Congr

end Memory

namespace BlockState

open Allocator

/-- The tables a process is translated by. -/
def view (s : BlockState) (pml4t : Nat) : Memory := s.alloc.memory.userHalf pml4t

/-- The process owns the tables below the lower half of its directory, and a frame for each page
that is mapped there. -/
structure Owns (s : BlockState) (pml4t : Nat) : Prop where
  tree : Memory.PageTree (s.view pml4t) pml4t
  tables : ∀ table, (s.view pml4t).IsTable pml4t table → s.TableBlock table
  pages : ∀ path f, path.length = 3 → (s.view pml4t).walk pml4t path = some f →
    (f, 1) ∈ s.others
  apart : ∀ path path' f, path.length = 3 → path'.length = 3 →
    (s.view pml4t).walk pml4t path = some f → (s.view pml4t).walk pml4t path' = some f →
    path = path'

/-- An entry of a table that the process is translated by. -/
def UserEntry (pml4t table : Nat) (i : Fin 512) : Prop := table = pml4t → i.val < 256

variable {s t : BlockState} {contents : Group → List Nat} {group : Nat → Group}
  {pml4t table word : Nat} {i : Fin 512}

theorem TableBlock.entry (h : s.TableBlock table) (i : Fin 512) :
    (table + 8 * (i : Nat)) % 8 = 0 ∧ table + 8 * (i : Nat) < directMapEnd := by
  have haligned := h.aligned
  have hinside := h.inside
  have hi := i.isLt
  unfold ptSize at haligned hinside
  omega

theorem TableBlock.entry_virt (h : s.TableBlock table) (i : Fin 512) :
    physToVirt (table + 8 * (i : Nat)) = physToVirt table + 8 * (i : Nat) := by
  rw [physToVirt_of_lt (h.entry i).2, physToVirt_of_lt h.lt]
  omega

/-- What a process is translated by is in front of the kernel's half. -/
theorem UserEntry.out (h : UserEntry pml4t table i) (htable : table % ptSize = 0)
    (hpml4t : pml4t % ptSize = 0) :
    ¬ (pml4t + ptSize / 2 ≤ table + 8 * (i : Nat) ∧ table + 8 * (i : Nat) < pml4t + ptSize) := by
  have hi := i.isLt
  unfold UserEntry at h
  unfold ptSize at *
  omega

theorem load_entry (h : s.TableBlock table) (hpml4t : pml4t % ptSize = 0)
    (huser : UserEntry pml4t table i) :
    s.load (physToVirt (table + 8 * (i : Nat))) = (s.view pml4t).tableWord table i := by
  obtain ⟨haligned, hlt⟩ := h.entry i
  rw [load, loadWord_physToVirt haligned hlt]
  exact (if_neg (huser.out h.aligned hpml4t)).symm

/-- A store to an entry is a write to the process's view. -/
theorem view_store (h : s.TableBlock table) (hpml4t : pml4t % ptSize = 0)
    (huser : UserEntry pml4t table i) (hword : word < 2 ^ 64) :
    (s.store (physToVirt (table + 8 * (i : Nat))) word).view pml4t =
      (s.view pml4t).write (table + 8 * (i : Nat)) word := by
  obtain ⟨haligned, hlt⟩ := h.entry i
  have hmemory := memory_storeWord (s := s.alloc) haligned hlt hword
  funext p
  unfold view Memory.userHalf Memory.write
  by_cases hp : p = table + 8 * (i : Nat)
  · rw [hp, Function.update_self, if_neg (huser.out h.aligned hpml4t)]
    exact (congrFun hmemory _).trans (Function.update_self ..)
  · rw [Function.update_of_ne hp]
    split
    · rfl
    · exact (congrFun hmemory p).trans (Function.update_of_ne hp ..)

/-- The view of a table in use depends on the bytes of its block only. -/
theorem view_tableWord_congr (h : s.TableBlock table)
    (hbytes : ∀ x, physToVirt table ≤ x ∧ x < physToVirt table + ptSize →
      t.alloc.bytes x = s.alloc.bytes x) (i : Fin 512) :
    (t.view pml4t).tableWord table i = (s.view pml4t).tableWord table i := by
  unfold Memory.tableWord view Memory.userHalf
  split
  · rfl
  · refine memory_congr fun j hj => hbytes _ ?_
    have hi := i.isLt
    rw [h.entry_virt i]
    unfold ptSize
    omega

/-- What a process owns. -/
def owned (s : BlockState) (pml4t : Nat) : Set Resource := {r | match r with
  | .block b g => g = tableGroup ∧ ∃ table, (s.view pml4t).IsTable pml4t table ∧
      b = physToVirt table
  | .frames f n => n = 1 ∧ ∃ path, path.length = 3 ∧ (s.view pml4t).walk pml4t path = some f}

theorem mem_owned_block {b : Nat} {g : Group} : .block b g ∈ s.owned pml4t ↔
    g = tableGroup ∧ ∃ table, (s.view pml4t).IsTable pml4t table ∧ b = physToVirt table := Iff.rfl

theorem mem_owned_frames {f n : Nat} : .frames f n ∈ s.owned pml4t ↔
    n = 1 ∧ ∃ path, path.length = 3 ∧ (s.view pml4t).walk pml4t path = some f := Iff.rfl

theorem owned_of_isTable (h : (s.view pml4t).IsTable pml4t table) :
    .block (physToVirt table) tableGroup ∈ s.owned pml4t := ⟨rfl, table, h, rfl⟩

/-- What the same walks lead to is the same. -/
theorem owned_congr (h : ∀ path, path.length ≤ 3 →
      (t.view pml4t).walk pml4t path = (s.view pml4t).walk pml4t path) :
    t.owned pml4t = s.owned pml4t := by
  have htables (T : Nat) : (t.view pml4t).IsTable pml4t T ↔ (s.view pml4t).IsTable pml4t T := by
    refine exists_congr fun path => and_congr_right fun hlen => ?_
    have hwalk := h path (by omega)
    unfold Memory.walk at hwalk
    rw [hwalk]
  ext r
  cases r with
  | block b g => simp only [mem_owned_block, htables]
  | frames f n =>
      refine and_congr_right fun _ => exists_congr fun path => and_congr_right fun hlen => ?_
      rw [h path hlen.le]

namespace Owns

theorem owned_subset (h : s.Owns pml4t) : s.owned pml4t ⊆ s.held := by
  intro r hr
  cases r with
  | block b g =>
      obtain ⟨hgroup, table, htable, hb⟩ := mem_owned_block.mp hr
      rw [mem_held_block, hgroup, hb]
      exact (h.tables table htable).live
  | frames f n =>
      obtain ⟨rfl, path, hpath, hf⟩ := mem_owned_frames.mp hr
      exact h.pages path f hpath hf

/-- What another owner does leaves the process as it is. -/
theorem of_acts (h : s.Owns pml4t) {part part' : Set Resource} (hacts : s.Acts t part part')
    (hapart : Disjoint (s.owned pml4t) part) : t.Owns pml4t ∧ t.owned pml4t = s.owned pml4t ∧
      ∀ path, path.length ≤ 3 →
        (t.view pml4t).walk pml4t path = (s.view pml4t).walk pml4t path := by
  have hkeep {r : Resource} (hr : r ∈ s.owned pml4t) : r ∈ s.held \ part :=
    ⟨h.owned_subset hr, Set.disjoint_left.mp hapart hr⟩
  have hheld {r : Resource} (hr : r ∈ s.owned pml4t) : r ∈ t.held :=
    hacts.mem_of_not_mem (hkeep hr).1 (hkeep hr).2
  have hsame (T : Nat) (hT : (s.view pml4t).IsTable pml4t T) (i : Fin 512) :
      (t.view pml4t).tableWord T i = (s.view pml4t).tableWord T i := by
    refine view_tableWord_congr (h.tables T hT) (fun x hx => ?_) i
    exact hacts.bytes _ _ (hkeep (owned_of_isTable hT)) x (by rwa [blockSize_tableGroup])
  have hwalk (path : List (Fin 512)) (hpath : path.length ≤ 3) := Memory.walk_congr hsame hpath
  refine ⟨⟨h.tree.congr hsame, fun T hT => ?_, fun path f hpath hf => ?_,
    fun path path' f hpath hpath' hf hf' => ?_⟩, owned_congr hwalk, hwalk⟩
  · rw [Memory.isTable_congr hsame] at hT
    have hblock := h.tables T hT
    exact ⟨hheld (owned_of_isTable hT), hblock.aligned, hblock.inside⟩
  · rw [hwalk path hpath.le] at hf
    exact hheld (mem_owned_frames.mpr ⟨rfl, path, hpath, hf⟩)
  · rw [hwalk path hpath.le] at hf
    rw [hwalk path' hpath'.le] at hf'
    exact h.apart path path' f hpath hpath' hf hf'

theorem aligned (h : s.Owns pml4t) : pml4t % ptSize = 0 := h.tree.aligned

theorem root (h : s.Owns pml4t) : s.TableBlock pml4t :=
  h.tables pml4t (inTree_root 2)

end Owns

/-! ## A new directory -/

/-- The directory of a new process has nothing in its lower half. -/
theorem createPageDir_spec (h : BlockInv s contents group)
    (heq : s.createPageDir = some (some pml4t, t)) :
    ∃ contents' group', BlockInv t contents' group' ∧ t.Owns pml4t ∧
      s.Acts t ∅ (t.owned pml4t) ∧
      ∀ path, path ≠ [] → (t.view pml4t).walk pml4t path = none := by
  obtain ⟨⟨status, v, u⟩, hkmalloc, heq⟩ := Option.bind_eq_some_iff.mp heq
  simp only at heq
  split at heq
  · simp at heq
  · next hstatus =>
      obtain rfl := not_not.mp hstatus
      simp only [Option.pure_def, Option.some.injEq, Prod.mk.injEq] at heq
      obtain ⟨contents', group', table, hinv, hvirt, hphys, hblock, hacts⟩ :=
        kmalloc_table h hkmalloc
      obtain ⟨heq, ht⟩ := heq
      obtain rfl : table = pml4t := hphys.symm.trans heq
      have hlive := hvirt.symm ▸ hblock.live
      have hinv' : BlockInv t contents' group' := by
        rw [← ht]
        exact inv_bytes (inv_memset hinv hlive) _
      have hbytes (x : Nat) : t.alloc.bytes x =
          if v + ptSize / 2 ≤ x ∧ x < v + ptSize then
            (u.alloc.memset v ptSize).bytes (physToVirt kernelPageDirTablePos + (x - v))
          else (u.alloc.memset v ptSize).bytes x := by
        rw [← ht]
        rfl
      have hlive' : t.live = u.live := by
        rw [← ht]
        rfl
      have hacts' : s.Acts t ∅ {.block v tableGroup} := by
        rw [← ht]
        refine hacts.trans (acts_table hinv hlive fun x hx => ?_)
        refine (if_neg fun hin => hx ⟨by omega, hin.2⟩).trans ?_
        rw [bytes_memset, if_neg hx]
      have hblock' : t.TableBlock table := by
        refine ⟨?_, hblock.aligned, hblock.inside⟩
        rw [hlive']
        exact hblock.live
      have hempty (i : Fin 512) : (t.view table).tableWord table i = 0 := by
        unfold Memory.tableWord view Memory.userHalf
        split
        · rfl
        · next hhalf =>
            have hi := i.isLt
            obtain ⟨haligned, hlt⟩ := hblock.entry i
            unfold memory
            rw [if_pos ⟨haligned, hlt⟩]
            refine loadWord_zero fun k hk => ?_
            have hentry := hblock.entry_virt i
            rw [hentry, hbytes, hvirt, if_neg (by unfold ptSize at *; omega), bytes_memset,
              if_pos (by unfold ptSize at *; omega)]
      have hwalk (path : List (Fin 512)) (hne : path ≠ []) :
          (t.view table).walk table path = none := by
        obtain ⟨i, path, rfl⟩ := List.exists_cons_of_ne_nil hne
        apply Memory.walk_of_entryLink_none
        rw [hempty]
        exact entryLink_zero
      have hroot {path : List (Fin 512)} {T : Nat} (hT : (t.view table).walk table path = some T) :
          path = [] := by
        by_contra hne
        rw [hwalk path hne] at hT
        cases hT
      have htables {T : Nat} (hT : (t.view table).IsTable table T) : T = table := by
        obtain ⟨path, -, hT⟩ := hT
        obtain rfl := hroot hT
        exact (Option.some.inj hT).symm
      refine ⟨contents', group', hinv', ⟨⟨hblock.aligned, ?_⟩, fun T hT => ?_,
        fun path f hpath hf => ?_, fun path path' f _ _ hf hf' => ?_⟩, ?_, hwalk⟩
      · exact fun path path' T _ _ hT hT' => (hroot hT).trans (hroot hT').symm
      · exact htables hT ▸ hblock'
      · rw [hroot hf] at hpath
        cases hpath
      · exact (hroot hf).trans (hroot hf').symm
      · have howned : t.owned table = {.block v tableGroup} := by
          ext r
          cases r with
          | block b g =>
              simp only [mem_owned_block, Set.mem_singleton_iff, Resource.block.injEq]
              constructor
              · rintro ⟨hgroup, T, hT, hb⟩
                rw [htables hT, ← hvirt] at hb
                exact ⟨hb, hgroup⟩
              · rintro ⟨hb, hgroup⟩
                exact ⟨hgroup, table, inTree_root 2, hb.trans hvirt⟩
          | frames f n =>
              simp only [mem_owned_frames, Set.mem_singleton_iff, reduceCtorEq, iff_false]
              rintro ⟨-, path, hpath, hf⟩
              rw [hroot hf] at hpath
              cases hpath
        rw [howned]
        exact hacts'

/-! ## Mapping a page -/

theorem store_live (s : BlockState) (a word : Nat) : (s.store a word).live = s.live := rfl

theorem store_others (s : BlockState) (a word : Nat) : (s.store a word).others = s.others := rfl

theorem store_held (s : BlockState) (a word : Nat) : (s.store a word).held = s.held := rfl

/-- A store to a table changes no other block. -/
theorem bytes_store_of_out (h : s.TableBlock table) (i : Fin 512) {x : Nat}
    (hx : ¬ (physToVirt table ≤ x ∧ x < physToVirt table + ptSize)) :
    (s.store (physToVirt (table + 8 * (i : Nat))) word).alloc.bytes x = s.alloc.bytes x := by
  refine bytes_storeWord_of_out fun hin => hx ?_
  rw [h.entry_virt i] at hin
  have hi := i.isLt
  unfold ptSize
  omega

/-- A store to a table is one to what its owner owns. -/
theorem acts_store (hinv : BlockInv s contents group) (h : s.TableBlock table) (i : Fin 512)
    (word : Nat) {part : Set Resource} (hpart : part ⊆ s.held)
    (hin : .block (physToVirt table) tableGroup ∈ part) :
    s.Acts (s.store (physToVirt (table + 8 * (i : Nat))) word) part part := by
  refine .of_held (store_held ..) hpart fun b g hb x hx => bytes_store_of_out h i ?_
  have hne : ¬ (b = physToVirt table ∧ g = tableGroup) := by
    rintro ⟨hb', hgroup⟩
    rw [hb', hgroup] at hb
    exact hb.2 hin
  have hout := live_apart hinv hb.1 h.live hne hx
  rwa [blockSize_tableGroup] at hout

/-- A table that is cleared reads as one. -/
theorem zeroTable_of_cleared (h : s.TableBlock table)
    (hcleared : ∀ x, physToVirt table ≤ x ∧ x < physToVirt table + ptSize → s.alloc.bytes x = 0) :
    (s.view pml4t).zeroTable table = s.view pml4t := by
  have hinside := h.inside
  have haligned := h.aligned
  funext p
  unfold Memory.zeroTable
  split
  · next hp =>
      unfold view Memory.userHalf
      split
      · rfl
      · unfold memory
        split
        · next hword =>
            refine (loadWord_zero fun k hk => hcleared _ ?_).symm
            rw [physToVirt_of_lt hword.2, physToVirt_of_lt h.lt]
            unfold ptSize at *
            omega
        · rfl
  · rfl

namespace Owns

/-- `ensureTable` makes the entry lead to a table, and leaves every other walk as it was. -/
theorem ensureTable (h : s.Owns pml4t) (hinv : BlockInv s contents group)
    {path : List (Fin 512)} (hlen : path.length ≤ 1)
    (hwalk : (s.view pml4t).walk pml4t path = some table) (huser : UserEntry pml4t table i)
    (heq : s.ensureTable (physToVirt (table + 8 * (i : Nat))) = some t) :
    ∃ contents' group' next, BlockInv t contents' group' ∧ t.Owns pml4t ∧
      s.Acts t (s.owned pml4t) (t.owned pml4t) ∧
      (t.view pml4t).walk pml4t (path ++ [i]) = some next ∧
      ∀ path', path'.length ≤ 3 → path' ≠ path ++ [i] →
        (t.view pml4t).walk pml4t path' = (s.view pml4t).walk pml4t path' := by
  have htable : (s.view pml4t).IsTable pml4t table := ⟨path, by omega, hwalk⟩
  have hblock := h.tables table htable
  unfold BlockState.ensureTable at heq
  rw [load_entry hblock h.aligned huser] at heq
  split at heq
  · next habsent =>
      obtain ⟨⟨v, u⟩, hnew, heq⟩ := Option.bind_eq_some_iff.mp heq
      simp only [Option.pure_def, Option.some.injEq] at heq
      obtain ⟨contents', group', fresh, hinv', hphys, hfresh⟩ := newTable_spec hinv hnew
      rw [hphys] at heq
      obtain ⟨hu, howned, hwalks⟩ := h.of_acts hfresh.acts (Set.disjoint_empty _)
      have hnotin : .block (physToVirt fresh) tableGroup ∉ s.held :=
        Set.disjoint_left.mp hfresh.acts.fresh ⟨rfl, Set.notMem_empty _⟩
      have hfreshTable : Memory.FreshTable (u.view pml4t) pml4t fresh := by
        refine ⟨hfresh.block.aligned, ?_, fun hin => hnotin (h.owned_subset ?_)⟩
        · have hlt := hfresh.block.lt
          unfold directMapEnd wordSize kernelVmaBase at hlt
          omega
        · rw [← howned]
          exact owned_of_isTable hin
      have hwalk' := (hwalks path (by omega)).trans hwalk
      have habsent : entryLink (u.view pml4t (table + 8 * (i : Nat))) = none := by
        have hstep := Memory.walk_concat (u.view pml4t) pml4t path i
        rw [hwalks _ (by rw [List.length_append, List.length_singleton]; omega),
          Memory.walk_concat, hwalk, hwalk'] at hstep
        exact hstep.symm.trans (entryLink_eq_none.mpr habsent)
      obtain ⟨mem', next, hensure, htree, hnext, hsame, htables⟩ :=
        Memory.ensureTable_walk i hu.tree hlen hwalk' hfreshTable
      -- the store is all that is left to do after the table was cleared
      have hblock' : u.TableBlock table := hu.tables table ⟨path, by omega, hwalk'⟩
      have hword : fresh ||| pgTableFlags < 2 ^ 64 :=
        Nat.or_lt_two_pow hfreshTable.bounded (by decide)
      have hview : t.view pml4t = (u.view pml4t).write (table + 8 * (i : Nat))
          (fresh ||| pgTableFlags) := by
        rw [← heq]
        exact view_store hblock' h.aligned huser hword
      have hmem' : mem' = t.view pml4t := by
        rw [Memory.ensureTable, if_pos (entryLink_eq_none.mp habsent), Option.map_some,
          Option.some.injEq, zeroTable_of_cleared hfresh.block hfresh.cleared] at hensure
        exact hensure.symm.trans hview.symm
      rw [hmem'] at htree hnext hsame htables
      have hlink : (t.view pml4t).walk pml4t (path ++ [i]) = some fresh := by
        rw [Memory.walk_concat, hsame path (by omega) (by simp), hwalk', Option.bind_some, hview]
        unfold Memory.write
        rw [Function.update_self]
        exact entryLink_or hfreshTable.bounded hfreshTable.aligned (by decide) (by decide)
      have htables (T : Nat) : (t.view pml4t).IsTable pml4t T ↔
          (u.view pml4t).IsTable pml4t T ∨ T = fresh := by
        refine ⟨htables T, ?_⟩
        rintro (⟨path', hpath', hT⟩ | rfl)
        · refine ⟨path', hpath', (hsame path' (by omega) ?_).trans hT⟩
          rintro rfl
          have hnone := Memory.walk_concat (u.view pml4t) pml4t path i
          rw [hwalk', Option.bind_some, habsent] at hnone
          cases hnone.symm.trans hT
        · exact ⟨path ++ [i], by rw [List.length_append, List.length_singleton]; omega, hlink⟩
      have hlonger {path' : List (Fin 512)} (hpath' : path'.length = 3) :
          (t.view pml4t).walk pml4t path' = (s.view pml4t).walk pml4t path' := by
        refine (hsame path' hpath'.le ?_).trans (hwalks path' hpath'.le)
        rintro rfl
        rw [List.length_append, List.length_singleton] at hpath'
        omega
      have howned' : t.owned pml4t = {.block (physToVirt fresh) tableGroup} ∪ s.owned pml4t := by
        rw [← howned]
        ext r
        cases r with
        | block b g =>
            simp only [mem_owned_block, htables, Set.singleton_union, Set.mem_insert_iff,
              Resource.block.injEq]
            constructor
            · rintro ⟨hgroup, T, hT | hT, hb⟩
              · exact Or.inr ⟨hgroup, T, hT, hb⟩
              · exact Or.inl ⟨hT ▸ hb, hgroup⟩
            · rintro (⟨hb, hgroup⟩ | ⟨hgroup, T, hT, hb⟩)
              · exact ⟨hgroup, fresh, Or.inr rfl, hb⟩
              · exact ⟨hgroup, T, Or.inl hT, hb⟩
        | frames f n =>
            simp only [mem_owned_frames, Set.singleton_union, Set.mem_insert_iff, reduceCtorEq,
              false_or]
            refine and_congr_right fun _ => exists_congr fun path' =>
              and_congr_right fun hlen' => ?_
            rw [hlonger hlen', hwalks path' hlen'.le]
      have hacts := hfresh.acts.frame h.owned_subset (Set.disjoint_empty _)
      rw [Set.empty_union, ← howned'] at hacts
      have hheld : t.held = u.held := by
        rw [← heq]
        exact store_held ..
      have hsub : t.owned pml4t ⊆ u.held := by
        rw [hacts.after]
        exact Set.subset_union_right
      refine ⟨contents', group', next, ?_, ⟨htree, fun T hT => ?_, fun path' f hpath' hf => ?_,
        fun path₁ path₂ f hpath₁ hpath₂ hf₁ hf₂ => ?_⟩, ?_, hnext, fun path' hpath' hne =>
        (hsame path' hpath' hne).trans (hwalks path' hpath')⟩
      · rw [← heq]
        exact inv_bytes hinv' _
      · have hT' : u.TableBlock T := by
          rcases (htables T).mp hT with hT | rfl
          · exact hu.tables T hT
          · exact hfresh.block
        refine ⟨?_, hT'.aligned, hT'.inside⟩
        rw [← heq, store_live]
        exact hT'.live
      · rw [hlonger hpath'] at hf
        rw [← mem_held_frames, hheld]
        exact hu.pages path' f hpath' ((hwalks path' hpath'.le).trans hf)
      · rw [hlonger hpath₁] at hf₁
        rw [hlonger hpath₂] at hf₂
        exact h.apart path₁ path₂ f hpath₁ hpath₂ hf₁ hf₂
      · refine hacts.trans ?_
        rw [← heq] at hsub ⊢
        refine acts_store hinv' hblock' i _ hsub ?_
        rw [heq]
        exact owned_of_isTable ((htables table).mpr (Or.inl ⟨path, by omega, hwalk'⟩))
  · next hpresent =>
      obtain rfl := Option.some.inj heq
      refine ⟨contents, group, (s.view pml4t).tableWord table i &&& entryMask, hinv, h,
        .of_held rfl h.owned_subset fun _ _ _ _ _ => rfl, ?_, fun _ _ _ => rfl⟩
      rw [Memory.walk_concat, hwalk, Option.bind_some]
      exact if_neg hpresent

/-- Below the root an entry is never one of the kernel's half. -/
theorem userEntry (h : s.Owns pml4t) {path : List (Fin 512)} (hlen : path.length ≤ 2)
    (hwalk : (s.view pml4t).walk pml4t path = some table) (hne : path ≠ []) (i : Fin 512) :
    UserEntry pml4t table i := by
  rintro rfl
  exact absurd (h.tree.unshared path [] table hlen (Nat.zero_le 2) hwalk rfl) hne

/-- An entry of a page directory is written: its page gets the frame that is written, if any, and
nothing else is changed. -/
theorem writePde (h : s.Owns pml4t) {path : List (Fin 512)} (hlen : path.length = 2)
    (hwalk : (s.view pml4t).walk pml4t path = some table) (hword : word < 2 ^ 64)
    (hnew : ∀ f, entryLink word = some f → (f, 1) ∈ s.others ∧
      ∀ path', path'.length = 3 → (s.view pml4t).walk pml4t path' = some f → path' = path ++ [i]) :
    (s.store (physToVirt (table + 8 * (i : Nat))) word).Owns pml4t ∧
      (∀ T, ((s.store (physToVirt (table + 8 * (i : Nat))) word).view pml4t).IsTable pml4t T ↔
        (s.view pml4t).IsTable pml4t T) ∧
      ∀ path', path'.length = 3 →
        ((s.store (physToVirt (table + 8 * (i : Nat))) word).view pml4t).walk pml4t path' =
          if path' = path ++ [i] then entryLink word else (s.view pml4t).walk pml4t path' := by
  have htable : (s.view pml4t).IsTable pml4t table := ⟨path, hlen.le, hwalk⟩
  have hblock := h.tables table htable
  have huser := h.userEntry hlen.le hwalk (by rintro rfl; simp at hlen) i
  have hview := view_store hblock h.aligned huser hword
  obtain ⟨htree, hwalks⟩ := Memory.write_walk i word h.tree hlen hwalk
  have hwrite := Memory.writtenAt_write i word h.tree htable
  have htables (T : Nat) : ((s.view pml4t).write (table + 8 * (i : Nat)) word).IsTable pml4t T ↔
      (s.view pml4t).IsTable pml4t T := by
    refine exists_congr fun path' => and_congr_right fun hpath' => ?_
    rw [tableAt_of_apart h.tree.unshared hlen.le hwalk hwrite (by omega) fun hpre => ?_]
    have hle := hpre.length_le
    rw [List.length_append, List.length_singleton] at hle
    omega
  rw [← hview] at htree hwalks htables
  refine ⟨⟨htree, fun T hT => ?_, fun path' f hpath' hf => ?_,
    fun path₁ path₂ f hpath₁ hpath₂ hf₁ hf₂ => ?_⟩, htables, hwalks⟩
  · have hT := h.tables T ((htables T).mp hT)
    refine ⟨?_, hT.aligned, hT.inside⟩
    rw [store_live]
    exact hT.live
  · rw [hwalks path' hpath'] at hf
    rw [store_others]
    split at hf
    · exact (hnew f hf).1
    · exact h.pages path' f hpath' hf
  · rw [hwalks path₁ hpath₁] at hf₁
    rw [hwalks path₂ hpath₂] at hf₂
    split at hf₁
    · next heq₁ =>
        split at hf₂
        · next heq₂ => exact heq₁.trans heq₂.symm
        · exact heq₁.trans ((hnew f hf₁).2 path₂ hpath₂ hf₂).symm
    · split at hf₂
      · next heq₂ => exact ((hnew f hf₂).2 path₁ hpath₁ hf₁).trans heq₂.symm
      · exact h.apart path₁ path₂ f hpath₁ hpath₂ hf₁ hf₂

/-- `page_map` of a frame that is held, to a page that is not mapped. -/
theorem pageMap (h : s.Owns pml4t) (hinv : BlockInv s contents group) {f vaddr : Nat}
    (hvaddr : vaddr < 2 ^ 47) (hf : f % pgSize = 0) (hlt : f < 2 ^ 64)
    (hheld : (f, 1) ∈ s.others) (hnotin : .frames f 1 ∉ s.owned pml4t)
    (hempty : (s.view pml4t).walk pml4t (Memory.indexPath vaddr) = none)
    (heq : s.pageMap pml4t f vaddr = some t) :
    ∃ contents' group', BlockInv t contents' group' ∧ t.Owns pml4t ∧
      s.Acts t (s.owned pml4t ∪ {.frames f 1}) (t.owned pml4t) ∧
      ∀ path, path.length = 3 → (t.view pml4t).walk pml4t path =
        if path = Memory.indexPath vaddr then some f else (s.view pml4t).walk pml4t path := by
  have hword : vaddr < 2 ^ 64 := hvaddr.trans (by decide)
  have huser : UserEntry pml4t pml4t (Memory.pml4tIndex vaddr) :=
    fun _ => UserHalf.index (a := vaddr) hvaddr
  unfold BlockState.pageMap at heq
  simp only [Memory.addrPml4tIndex_pageMask hword, Memory.addrPdptIndex_pageMask hword,
    Memory.addrPdtIndex_pageMask hword] at heq
  have hroot (u : BlockState) : (u.view pml4t).walk pml4t [] = some pml4t := rfl
  have hlen₀ : ([] : List (Fin 512)).length ≤ 1 := Nat.zero_le 1
  have hentry₀ : physToVirt pml4t + 8 * addrPml4tIndex vaddr =
      physToVirt (pml4t + 8 * (Memory.pml4tIndex vaddr : Nat)) :=
    (h.root.entry_virt (Memory.pml4tIndex vaddr)).symm
  rw [hentry₀] at heq
  obtain ⟨u₁, hensure₁, heq⟩ := Option.bind_eq_some_iff.mp heq
  obtain ⟨u₂, hensure₂, heq⟩ := Option.bind_eq_some_iff.mp heq
  obtain ⟨contents₁, group₁, table₁, hinv₁, h₁, hacts₁, hwalk₁, hsame₁⟩ :=
    h.ensureTable hinv hlen₀ (hroot s) huser hensure₁
  -- the entry of the directory leads to the table of the second level
  have hload₁ : u₁.load (physToVirt (pml4t + 8 * (Memory.pml4tIndex vaddr : Nat))) &&& entryMask =
      table₁ := by
    rw [load_entry h₁.root h₁.aligned huser]
    exact (Memory.entry_of_walk (hroot u₁) hwalk₁).2
  rw [hload₁] at hensure₂
  have huser₁ := h₁.userEntry (by simp) hwalk₁ (by simp) (Memory.pdptIndex vaddr)
  obtain ⟨contents₂, group₂, table₂, hinv₂, h₂, hacts₂, hwalk₂, hsame₂⟩ :=
    h₁.ensureTable hinv₁ (by simp) hwalk₁ huser₁ hensure₂
  have hwalk₁₂ : (u₂.view pml4t).walk pml4t ([] ++ [Memory.pml4tIndex vaddr]) = some table₁ :=
    (hsame₂ _ (by simp) (by simp)).trans hwalk₁
  have hload₂ : u₂.load (physToVirt (table₁ + 8 * (Memory.pdptIndex vaddr : Nat))) &&& entryMask =
      table₂ := by
    rw [load_entry (h₂.tables _ ⟨_, by simp, hwalk₁₂⟩) h₂.aligned huser₁]
    exact (Memory.entry_of_walk hwalk₁₂ hwalk₂).2
  have hbefore {path : List (Fin 512)} (hpath : path.length = 3) :
      (u₂.view pml4t).walk pml4t path = (s.view pml4t).walk pml4t path := by
    rw [hsame₂ path hpath.le, hsame₁ path hpath.le]
    · rintro rfl
      simp at hpath
    · rintro rfl
      simp at hpath
  have hpde : (f &&& pageMask) ||| pgDefaultFlags < 2 ^ 64 :=
    Nat.or_lt_two_pow (Nat.lt_of_le_of_lt Nat.and_le_left hlt) (by decide)
  have hlink : entryLink ((f &&& pageMask) ||| pgDefaultFlags) = some f := by
    rw [Memory.entryLink_page hlt, Nat.div_mul_cancel (Nat.dvd_of_mod_eq_zero hf)]
  -- the frame stays held and unmapped while the tables are made
  have hacts := (hacts₁.trans hacts₂).frame (Set.singleton_subset_iff.mpr hheld)
    (Set.disjoint_singleton_left.mpr hnotin)
  have hsub : u₂.owned pml4t ∪ {.frames f 1} ⊆ u₂.held := by
    rw [hacts.after]
    exact Set.subset_union_right
  obtain ⟨h₃, htables₃, hwalks₃⟩ := h₂.writePde (i := Memory.pdtIndex vaddr) (by simp) hwalk₂
    hpde fun g hg => by
      rw [hlink] at hg
      obtain rfl := Option.some.inj hg
      refine ⟨hsub (Or.inr rfl), fun path hpath hwalk => ?_⟩
      rw [hbefore hpath] at hwalk
      exact absurd (mem_owned_frames.mpr ⟨rfl, path, hpath, hwalk⟩) hnotin
  have hstore := acts_store hinv₂ (h₂.tables _ ⟨_, by simp, hwalk₂⟩) (Memory.pdtIndex vaddr)
    ((f &&& pageMask) ||| pgDefaultFlags) hsub (Or.inl (owned_of_isTable ⟨_, by simp, hwalk₂⟩))
  have hinv₃ : BlockInv (u₂.store (physToVirt (table₂ + 8 * (Memory.pdtIndex vaddr : Nat)))
      ((f &&& pageMask) ||| pgDefaultFlags)) contents₂ group₂ := inv_bytes hinv₂ _
  have ht : t = u₂.store (physToVirt (table₂ + 8 * (Memory.pdtIndex vaddr : Nat)))
      ((f &&& pageMask) ||| pgDefaultFlags) := by
    simp only [Option.pure_def, Option.some.injEq] at heq
    rw [← heq, hload₁]
    change u₂.store (physToVirt ((u₂.load (physToVirt (table₁ + 8 *
      (Memory.pdptIndex vaddr : Nat))) &&& entryMask) + _)) _ = _
    rw [hload₂]
    rfl
  rw [← ht] at h₃ htables₃ hwalks₃ hstore hinv₃
  rw [hlink] at hwalks₃
  have hwalks (path : List (Fin 512)) (hpath : path.length = 3) : (t.view pml4t).walk pml4t path =
      if path = Memory.indexPath vaddr then some f else (s.view pml4t).walk pml4t path := by
    rw [hwalks₃ path hpath, hbefore hpath]
    rfl
  have howned : t.owned pml4t = u₂.owned pml4t ∪ {.frames f 1} := by
    ext r
    cases r with
    | block b g => simp [mem_owned_block, htables₃]
    | frames g n =>
        simp only [mem_owned_frames, Set.union_singleton, Set.mem_insert_iff,
          Resource.frames.injEq]
        constructor
        · rintro ⟨rfl, path, hpath, hg⟩
          rw [hwalks path hpath] at hg
          split at hg
          · exact Or.inl ⟨(Option.some.inj hg).symm, rfl⟩
          · exact Or.inr ⟨rfl, path, hpath, (hbefore hpath).trans hg⟩
        · rintro (⟨rfl, rfl⟩ | ⟨rfl, path, hpath, hg⟩)
          · exact ⟨rfl, _, rfl, (hwalks _ rfl).trans (if_pos rfl)⟩
          · rw [hbefore hpath] at hg
            refine ⟨rfl, path, hpath, (hwalks path hpath).trans ?_⟩
            rw [if_neg, hg]
            rintro rfl
            cases hempty.symm.trans hg
  refine ⟨contents₂, group₂, hinv₃, h₃, ?_, hwalks⟩
  rw [howned]
  exact hacts.trans hstore

end Owns

end BlockState

end ClayFigure
