/-
# Trees of tables in a memory

A table has a cell for every index; a cell may lead on to another table. Following a
list of indices from a root walks down the tree. When no table of the upper levels is
reached on two paths, writing a cell changes just the walks that pass through it, so
a subtree can be put in or cut off without looking at the rest.
-/

import Mathlib.Data.List.Infix
import Mathlib.Logic.Function.Basic

namespace ClayFigure.Math

universe u v w

variable {τ : Type u} {ι : Type v} {ν : Type w}

/-- The table reached from `root` along a path of indices; `next` reads a cell as a link. -/
def tableAt (next : ν → Option τ) (cells : τ → ι → ν) (root : τ) : List ι → Option τ
  | [] => some root
  | i :: path => (next (cells root i)).bind fun table => tableAt next cells table path

variable {next : ν → Option τ} {cells cells' : τ → ι → ν} {root : τ}

@[simp]
theorem tableAt_nil : tableAt next cells root [] = some root := rfl

theorem tableAt_append (path path' : List ι) :
    tableAt next cells root (path ++ path') =
      (tableAt next cells root path).bind fun table => tableAt next cells table path' := by
  induction path generalizing root with
  | nil => rfl
  | cons i path ih =>
      simp only [List.cons_append, tableAt]
      cases next (cells root i) with
      | none => rfl
      | some table => exact ih

theorem tableAt_concat (path : List ι) (i : ι) :
    tableAt next cells root (path ++ [i]) =
      (tableAt next cells root path).bind fun table => next (cells table i) := by
  rw [tableAt_append]
  simp [tableAt]

/-- A table of the levels down to `depth`. -/
def InTree (next : ν → Option τ) (cells : τ → ι → ν) (root : τ) (depth : Nat) (table : τ) : Prop :=
  ∃ path, path.length ≤ depth ∧ tableAt next cells root path = some table

/-- No table of the levels down to `depth` is reached on two paths. -/
def Unshared (next : ν → Option τ) (cells : τ → ι → ν) (root : τ) (depth : Nat) : Prop :=
  ∀ path path' table, path.length ≤ depth → path'.length ≤ depth →
    tableAt next cells root path = some table → tableAt next cells root path' = some table →
      path = path'

theorem inTree_root (depth : Nat) : InTree next cells root depth root :=
  ⟨[], Nat.zero_le depth, rfl⟩

/-- Walks see the tables of the tree only. -/
theorem tableAt_congr {depth : Nat}
    (hsame : ∀ table, InTree next cells root depth table → ∀ i, cells' table i = cells table i)
    {path : List ι} (hpath : path.length ≤ depth + 1) :
    tableAt next cells' root path = tableAt next cells root path := by
  induction path using List.reverseRecOn with
  | nil => rfl
  | append_singleton path i ih =>
      rw [List.length_append, List.length_singleton] at hpath
      rw [tableAt_concat, tableAt_concat, ih (by omega)]
      cases htable : tableAt next cells root path with
      | none => rfl
      | some table =>
          simp only [Option.bind_some]
          rw [hsame table ⟨path, by omega, htable⟩]

/-- Cell `i` of `table` is given the value `v`, as far as the tree can see. -/
def WrittenAt (next : ν → Option τ) (cells cells' : τ → ι → ν) (root : τ) (depth : Nat)
    (table : τ) (i : ι) (v : ν) : Prop :=
  cells' table i = v ∧ ∀ table', InTree next cells root depth table' → ∀ i',
    ¬ (table' = table ∧ i' = i) → cells' table' i' = cells table' i'

section Write

variable {depth : Nat} {path₀ : List ι} {table₀ : τ} {i₀ : ι} {v : ν}

/-- A walk that does not pass through the written cell is the same as before. -/
theorem tableAt_of_apart (hun : Unshared next cells root depth)
    (hlen : path₀.length ≤ depth) (htable : tableAt next cells root path₀ = some table₀)
    (hwrite : WrittenAt next cells cells' root depth table₀ i₀ v) {path : List ι}
    (hpath : path.length ≤ depth + 1) (hnot : ¬ path₀ ++ [i₀] <+: path) :
    tableAt next cells' root path = tableAt next cells root path := by
  induction path using List.reverseRecOn with
  | nil => rfl
  | append_singleton path i ih =>
      rw [List.length_append, List.length_singleton] at hpath
      have hsame := ih (by omega) fun hpre => hnot (hpre.trans (List.prefix_append path [i]))
      rw [tableAt_concat, tableAt_concat, hsame]
      cases hmem : tableAt next cells root path with
      | none => rfl
      | some table =>
          simp only [Option.bind_some]
          rw [hwrite.2 table ⟨path, by omega, hmem⟩ i]
          rintro ⟨rfl, rfl⟩
          have heq := hun path path₀ table (by omega) hlen hmem htable
          exact hnot (heq ▸ List.prefix_refl _)

/-- The walk to the written cell follows the new value. -/
theorem tableAt_written (hun : Unshared next cells root depth) (hlen : path₀.length ≤ depth)
    (htable : tableAt next cells root path₀ = some table₀)
    (hwrite : WrittenAt next cells cells' root depth table₀ i₀ v) :
    tableAt next cells' root (path₀ ++ [i₀]) = next v := by
  have hnot : ¬ path₀ ++ [i₀] <+: path₀ := fun hpre => by
    have := hpre.length_le
    rw [List.length_append, List.length_singleton] at this
    omega
  rw [tableAt_concat, tableAt_of_apart hun hlen htable hwrite (by omega) hnot, htable,
    Option.bind_some, hwrite.1]

/-- A fresh table without links is linked into a cell that led nowhere: every walk that
led somewhere is the same, the new table is the only one more, and none is shared. -/
theorem tableAt_link [DecidableEq ι] (hun : Unshared next cells root depth) (hlen : path₀.length ≤ depth)
    (htable : tableAt next cells root path₀ = some table₀)
    (hwrite : WrittenAt next cells cells' root depth table₀ i₀ v) {fresh : τ}
    (hnone : next (cells table₀ i₀) = none) (hfresh : next v = some fresh)
    (hempty : ∀ i, next (cells' fresh i) = none) {path : List ι}
    (hpath : path.length ≤ depth + 1) :
    tableAt next cells' root path =
      if path = path₀ ++ [i₀] then some fresh else tableAt next cells root path := by
  by_cases hpre : path₀ ++ [i₀] <+: path
  · obtain ⟨rest, rfl⟩ := hpre
    rw [tableAt_append, tableAt_written hun hlen htable hwrite, hfresh, Option.bind_some]
    cases rest with
    | nil => simp
    | cons i rest =>
        have hold : tableAt next cells root (path₀ ++ [i₀] ++ i :: rest) = none := by
          rw [tableAt_append, tableAt_concat, htable, Option.bind_some, hnone, Option.bind_none]
        rw [hold, tableAt, hempty, Option.bind_none, if_neg]
        intro heq
        have := congrArg List.length heq
        simp only [List.length_append, List.length_cons, List.length_nil] at this
        omega
  · rw [tableAt_of_apart hun hlen htable hwrite hpath hpre, if_neg]
    rintro rfl
    exact hpre (List.prefix_refl _)

theorem Unshared.link (hun : Unshared next cells root depth) (hlen : path₀.length ≤ depth)
    (htable : tableAt next cells root path₀ = some table₀)
    (hwrite : WrittenAt next cells cells' root depth table₀ i₀ v) {fresh : τ}
    (hnone : next (cells table₀ i₀) = none) (hfresh : next v = some fresh)
    (hempty : ∀ i, next (cells' fresh i) = none) (hnew : ¬ InTree next cells root depth fresh) :
    Unshared next cells' root depth := by
  classical
  have hwalk {path : List ι} (hpath : path.length ≤ depth) :
      tableAt next cells' root path =
        if path = path₀ ++ [i₀] then some fresh else tableAt next cells root path :=
    tableAt_link hun hlen htable hwrite hnone hfresh hempty (by omega)
  intro path path' table hpath hpath' hmem hmem'
  rw [hwalk hpath] at hmem
  rw [hwalk hpath'] at hmem'
  split at hmem
  · next heq =>
      split at hmem'
      · next heq' => rw [heq, heq']
      · rw [← hmem] at hmem'
        exact absurd ⟨path', hpath', hmem'⟩ hnew
  · split at hmem'
    · rw [← hmem'] at hmem
      exact absurd ⟨path, hpath, hmem⟩ hnew
    · exact hun path path' table hpath hpath' hmem hmem'

/-- Writing a cell of the lowest level shares no table. -/
theorem Unshared.write (hun : Unshared next cells root depth) (hlen : path₀.length = depth)
    (htable : tableAt next cells root path₀ = some table₀)
    (hwrite : WrittenAt next cells cells' root depth table₀ i₀ v) :
    Unshared next cells' root depth := by
  have hwalk {path : List ι} (hpath : path.length ≤ depth) :
      tableAt next cells' root path = tableAt next cells root path := by
    apply tableAt_of_apart hun hlen.le htable hwrite (by omega)
    intro hpre
    have := hpre.length_le
    rw [List.length_append, List.length_singleton] at this
    omega
  intro path path' table hpath hpath' hmem hmem'
  rw [hwalk hpath] at hmem
  rw [hwalk hpath'] at hmem'
  exact hun path path' table hpath hpath' hmem hmem'

end Write

/-! ## Gradings -/

/-- Every visible link out of a table above level `depth` leads one level further down. -/
def Graded (next : ν → Option τ) (cells : τ → ι → ν) (visible : τ → ι → Prop) (depth : Nat)
    (level : τ → Option Nat) : Prop :=
  ∀ table l i table', level table = some l → l < depth → visible table i →
    next (cells table i) = some table' → level table' = some (l + 1)

section Graded

variable {visible : τ → ι → Prop} {depth : Nat} {level : τ → Option Nat} {table₀ : τ} {i₀ : ι}

/-- What a cell of the lowest level holds is not a link. -/
theorem Graded.write (h : Graded next cells visible depth level)
    (hlevel : level table₀ = some depth)
    (hframe : ∀ table i, level table ≠ none → ¬ (table = table₀ ∧ i = i₀) →
      cells' table i = cells table i) : Graded next cells' visible depth level := by
  intro table l i table' htable hl hvisible hlink
  rw [hframe table i (by simp [htable])] at hlink
  · exact h table l i table' htable hl hvisible hlink
  · rintro ⟨rfl, -⟩
    rw [htable] at hlevel
    exact hl.ne (Option.some.inj hlevel)

/-- A table without a level is cleared and linked in below `table₀`. -/
theorem Graded.link [DecidableEq τ] (h : Graded next cells visible depth level) {l₀ : Nat}
    {fresh : τ} (hlevel : level table₀ = some l₀) (hfresh : level fresh = none)
    (hframe : ∀ table i, level table ≠ none → ¬ (table = table₀ ∧ i = i₀) →
      cells' table i = cells table i)
    (hlink₀ : next (cells' table₀ i₀) = some fresh)
    (hempty : ∀ i, next (cells' fresh i) = none) :
    Graded next cells' visible depth (Function.update level fresh (some (l₀ + 1))) := by
  intro table l i table' htable hl hvisible hlink
  by_cases hnew : table = fresh
  · rw [hnew, hempty] at hlink
    cases hlink
  rw [Function.update_of_ne hnew] at htable
  by_cases hcell : table = table₀ ∧ i = i₀
  · obtain ⟨rfl, rfl⟩ := hcell
    rw [hlink₀] at hlink
    rw [← Option.some.inj hlink, Function.update_self]
    rw [htable] at hlevel
    rw [Option.some.inj hlevel]
  · rw [hframe table i (by simp [htable]) hcell] at hlink
    have hbelow := h table l i table' htable hl hvisible hlink
    rwa [Function.update_of_ne]
    rintro rfl
    rw [hfresh] at hbelow
    cases hbelow

/-- A table without a level is given one; it may link to the tables one level below. -/
theorem Graded.insert [DecidableEq τ] (h : Graded next cells visible depth level) {l₀ : Nat}
    {fresh : τ} (hfresh : level fresh = none)
    (hframe : ∀ table i, level table ≠ none → cells' table i = cells table i)
    (hbelow : ∀ i table, visible fresh i → next (cells' fresh i) = some table →
      level table = some (l₀ + 1)) :
    Graded next cells' visible depth (Function.update level fresh (some l₀)) := by
  have hkeep {table : τ} {l : Nat} (htable : level table = some l) :
      Function.update level fresh (some l₀) table = some l := by
    rwa [Function.update_of_ne]
    rintro rfl
    rw [hfresh] at htable
    cases htable
  intro table l i table' htable hl hvisible hlink
  by_cases hnew : table = fresh
  · obtain rfl := hnew
    rw [Function.update_self] at htable
    rw [← Option.some.inj htable]
    exact hkeep (hbelow i table' hvisible hlink)
  · rw [Function.update_of_ne hnew] at htable
    rw [hframe table i (by simp [htable])] at hlink
    exact hkeep (h table l i table' htable hl hvisible hlink)

/-- Tables that are each reached at one depth only have a level. -/
theorem exists_level {reached : Nat → τ → Prop}
    (hone : ∀ l l' table, l ≤ depth → l' ≤ depth → reached l table → reached l' table → l = l') :
    ∃ level : τ → Option Nat, ∀ table l, level table = some l ↔ l ≤ depth ∧ reached l table := by
  classical
  refine ⟨fun table => if h : ∃ l, l ≤ depth ∧ reached l table then some h.choose else none,
    fun table l => ?_⟩
  by_cases h : ∃ l, l ≤ depth ∧ reached l table
  · have hspec := h.choose_spec
    simp only [dif_pos h, Option.some.injEq]
    constructor
    · rintro rfl
      exact hspec
    · exact fun hl => hone _ _ table hspec.1 hl.1 hspec.2 hl.2
  · simp only [dif_neg h, reduceCtorEq, false_iff]
    exact fun hl => h ⟨l, hl⟩

end Graded

end ClayFigure.Math
