/-
# Bounded queues and circular buffers

A queue that holds at most a fixed number of items, and the cells of a circular buffer that
hold one: the items lie one behind the other from the first cell on, around the end of the
buffer. Nothing is said about the cells between the last item and the first. An index that
goes around is the remainder of a count, and the quotient tells the lap.
-/

import Mathlib.Data.List.Basic
import Mathlib.Data.Nat.ModEq

namespace ClayFigure.Math

universe u

/-- A queue of at most `capacity` items, the oldest first. -/
structure BoundedQueue (α : Type u) (capacity : Nat) where
  items : List α
  bounded : items.length ≤ capacity

namespace BoundedQueue

variable {α : Type u} {capacity : Nat}

def empty (α : Type u) (capacity : Nat) : BoundedQueue α capacity := ⟨[], Nat.zero_le _⟩

/-- The queue with an item more at its end. -/
def append (q : BoundedQueue α capacity) (a : α) (hroom : q.items.length < capacity) :
    BoundedQueue α capacity where
  items := q.items ++ [a]
  bounded := by
    rw [List.length_append, List.length_singleton]
    exact hroom

/-- Put an item at the end; `none` when the queue is full. -/
def enqueue (q : BoundedQueue α capacity) (a : α) : Option (BoundedQueue α capacity) :=
  if hroom : q.items.length < capacity then some (q.append a hroom) else none

/-- Take the oldest item out; `none` when the queue is empty. -/
def dequeue (q : BoundedQueue α capacity) : Option (α × BoundedQueue α capacity) :=
  match q with
  | ⟨[], _⟩ => none
  | ⟨a :: items, hlen⟩ => some (a, ⟨items, Nat.le_of_succ_le hlen⟩)

theorem enqueue_of_room {q : BoundedQueue α capacity} (hroom : q.items.length < capacity) (a : α) :
    q.enqueue a = some (q.append a hroom) := dif_pos hroom

theorem enqueue_of_full {q : BoundedQueue α capacity} (hfull : ¬ q.items.length < capacity) (a : α) :
    q.enqueue a = none := dif_neg hfull

end BoundedQueue

/-! ## Circular buffers -/

/-- From cell `next` on, the first `size` cells hold the items in their order. -/
structure Circular {α : Type u} (cells : Nat → α) (size next : Nat) (items : List α) :
    Prop where
  inside : next < size
  bounded : items.length ≤ size
  cell : ∀ i (hi : i < items.length), cells ((next + i) % size) = items[i]

namespace Circular

variable {α : Type u} {cells cells' : Nat → α} {size next : Nat} {items : List α} {a : α}

theorem nil (hsize : 0 < size) : Circular cells size 0 [] :=
  ⟨hsize, Nat.zero_le _, fun _ hi => absurd hi (Nat.not_lt_zero _)⟩

/-- Two places of the buffer are different cells. -/
theorem index_ne {i j : Nat} (hij : i < j) (hj : j < size) :
    (next + i) % size ≠ (next + j) % size := by
  intro heq
  have hmod : (i % size) = j % size := Nat.ModEq.add_left_cancel' next heq
  rw [Nat.mod_eq_of_lt (Nat.lt_trans hij hj), Nat.mod_eq_of_lt hj] at hmod
  omega

/-- An item written into the first free cell is at the end. -/
theorem enqueue (h : Circular cells size next items) (hroom : items.length < size)
    (hnew : cells' ((next + items.length) % size) = a)
    (hkeep : ∀ i < size, i ≠ (next + items.length) % size → cells' i = cells i) :
    Circular cells' size next (items ++ [a]) := by
  have hsize : 0 < size := by omega
  refine ⟨h.inside, by simp; omega, fun i hi => ?_⟩
  rw [List.length_append, List.length_singleton] at hi
  rcases Nat.lt_or_ge i items.length with hlt | hge
  · rw [List.getElem_append_left hlt, ← h.cell i hlt]
    exact hkeep _ (Nat.mod_lt _ hsize) (index_ne hlt hroom)
  · obtain rfl : i = items.length := by omega
    simpa using hnew

/-- The first cell holds the oldest item, the others the rest. -/
theorem dequeue (h : Circular cells size next (a :: items)) :
    cells next = a ∧ Circular cells size ((next + 1) % size) items := by
  have hsize : 0 < size := Nat.zero_lt_of_lt h.inside
  have hbounded := h.bounded
  rw [List.length_cons] at hbounded
  refine ⟨?_, Nat.mod_lt _ hsize, by omega, fun i hi => ?_⟩
  · have hfirst := h.cell 0 (by simp)
    rwa [Nat.add_zero, Nat.mod_eq_of_lt h.inside] at hfirst
  · have hcell := h.cell (i + 1) (by simpa using hi)
    rw [List.getElem_cons_succ] at hcell
    rw [← hcell, Nat.mod_add_mod, Nat.add_assoc, Nat.add_comm 1 i]

/-- Only the first `size` cells count. -/
theorem congr (h : Circular cells size next items) (hcells : ∀ i < size, cells' i = cells i) :
    Circular cells' size next items := by
  have hsize : 0 < size := Nat.zero_lt_of_lt h.inside
  refine ⟨h.inside, h.bounded, fun i hi => ?_⟩
  rw [hcells _ (Nat.mod_lt _ hsize), h.cell i hi]

end Circular

/-! ## Laps -/

section Laps

variable {n p : Nat}

/-- An index and its lap, one step on. -/
theorem succ_lap (hn : 0 < n) :
    (p + 1) / n = (if p % n + 1 = n then p / n + 1 else p / n) ∧
      (p + 1) % n = if p % n + 1 = n then 0 else p % n + 1 := by
  have hsplit := Nat.mod_add_div p n
  have hlt := Nat.mod_lt p hn
  rw [Nat.div_mod_unique hn]
  split
  · refine ⟨?_, hn⟩
    rw [Nat.mul_succ]
    omega
  · exact ⟨by omega, by omega⟩

/-- The same index in the lap before. -/
theorem sub_lap (hn : 0 < n) (hle : n ≤ p) : (p - n) / n + 1 = p / n ∧ (p - n) % n = p % n := by
  obtain ⟨k, rfl⟩ := Nat.exists_eq_add_of_le hle
  rw [Nat.add_sub_cancel_left, Nat.add_div_left k hn, Nat.add_mod_left]
  exact ⟨rfl, rfl⟩

/-- Counts less than a lap apart have different indices. -/
theorem mod_ne_of_lt {k : Nat} (hlt : k < p) (hlap : p < k + n) : k % n ≠ p % n := by
  intro heq
  have hdvd := Nat.sub_mod_eq_zero_of_mod_eq heq.symm
  rw [Nat.mod_eq_of_lt (by omega)] at hdvd
  omega

end Laps

end ClayFigure.Math
