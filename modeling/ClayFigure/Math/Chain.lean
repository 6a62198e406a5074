/-
# Doubly linked chains

A store of `prev` and `next` pointers, the sequences of nodes it links in both
directions, and the effect of the two pointer surgeries on them: putting a node
between two neighbours and taking one out. Nothing here fixes what the nodes
are; sequences away from the surgery are framed by `Linked.congr`. A chain is what
a walk along either pointer meets.
-/

import Mathlib.Data.List.Chain
import Mathlib.Logic.Function.Basic

namespace ClayFigure.Math

universe u

/-- The pointers of every node; `none` is a null pointer. -/
structure Links (ν : Type u) where
  prev : ν → Option ν
  next : ν → Option ν

namespace Links

variable {ν : Type u}

/-- The nodes of the sequence point to their neighbours in both directions. -/
def Linked (k : Links ν) (ns : List ν) : Prop :=
  ns.IsChain fun a b => k.next a = some b ∧ k.prev b = some a

section Update

variable [DecidableEq ν]

def setPrev (k : Links ν) (a : ν) (v : Option ν) : Links ν :=
  { k with prev := Function.update k.prev a v }

def setNext (k : Links ν) (a : ν) (v : Option ν) : Links ν :=
  { k with next := Function.update k.next a v }

@[simp]
theorem prev_setNext (k : Links ν) (a : ν) (v : Option ν) : (k.setNext a v).prev = k.prev := rfl

@[simp]
theorem next_setPrev (k : Links ν) (a : ν) (v : Option ν) : (k.setPrev a v).next = k.next := rfl

theorem prev_setPrev (k : Links ν) (a : ν) (v : Option ν) (b : ν) :
    (k.setPrev a v).prev b = if b = a then v else k.prev b := by
  simp [setPrev, Function.update_apply]

theorem next_setNext (k : Links ν) (a : ν) (v : Option ν) (b : ν) :
    (k.setNext a v).next b = if b = a then v else k.next b := by
  simp [setNext, Function.update_apply]

end Update

namespace Linked

/-- A chain is read through the forward pointers of all nodes but the last and
the backward pointers of all nodes but the first. -/
theorem congr {k k' : Links ν} {ns : List ν} (h : k.Linked ns)
    (hnext : ∀ a ∈ ns.dropLast, k'.next a = k.next a)
    (hprev : ∀ b ∈ ns.tail, k'.prev b = k.prev b) : k'.Linked ns := by
  induction h with
  | nil => exact .nil
  | singleton a => exact .singleton a
  | @cons_cons a b ns hab hrest ih =>
      refine .cons_cons ⟨?_, ?_⟩ (ih (fun c hc => ?_) fun c hc => ?_)
      · rw [hnext a (by simp)]
        exact hab.1
      · rw [hprev b (by simp)]
        exact hab.2
      · exact hnext c (by simp [hc])
      · exact hprev c (by simp [List.mem_of_mem_tail hc])

theorem append_cons_cons_iff {k : Links ν} {pre post : List ν} {a b : ν} :
    k.Linked (pre ++ a :: b :: post) ↔
      k.Linked (pre ++ [a]) ∧ (k.next a = some b ∧ k.prev b = some a) ∧ k.Linked (b :: post) :=
  List.isChain_append_cons_cons

/-- Every node of a chain but the last points to a node of it. -/
theorem next_mem {k : Links ν} {ns : List ν} (h : k.Linked ns) :
    ∀ a ∈ ns.dropLast, ∃ b ∈ ns, k.next a = some b := by
  induction h with
  | nil => simp
  | singleton a => simp
  | @cons_cons a b ns hab hrest ih =>
      intro c hc
      rw [List.dropLast_cons_cons, List.mem_cons] at hc
      rcases hc with rfl | hc
      · exact ⟨b, by simp, hab.1⟩
      · obtain ⟨d, hd, heq⟩ := ih c hc
        exact ⟨d, List.mem_cons_of_mem _ hd, heq⟩

/-- Every node of a chain but the first points back to a node of it. -/
theorem prev_mem {k : Links ν} {ns : List ν} (h : k.Linked ns) :
    ∀ b ∈ ns.tail, ∃ a ∈ ns, k.prev b = some a := by
  induction h with
  | nil => simp
  | singleton a => simp
  | @cons_cons a b ns hab hrest ih =>
      intro c hc
      rw [List.tail_cons, List.mem_cons] at hc
      rcases hc with rfl | hc
      · exact ⟨a, by simp, hab.2⟩
      · obtain ⟨d, hd, heq⟩ := ih c hc
        exact ⟨d, List.mem_cons_of_mem _ hd, heq⟩

variable [DecidableEq ν]

/-- Put `n` between the neighbours `a` and `b`. -/
theorem insert {k : Links ν} {pre post : List ν} {a n b : ν}
    (h : k.Linked (pre ++ a :: b :: post)) (hnodup : (pre ++ a :: b :: post).Nodup)
    (hn : n ∉ pre ++ a :: b :: post) :
    ((((k.setNext a (some n)).setPrev n (some a)).setNext n (some b)).setPrev b (some n)).Linked
      (pre ++ a :: n :: b :: post) := by
  obtain ⟨hleft, -, hright⟩ := append_cons_cons_iff.mp h
  simp only [List.mem_append, List.mem_cons, not_or] at hn
  obtain ⟨hnpre, hna, hnb, hnpost⟩ := hn
  rw [List.nodup_append] at hnodup
  obtain ⟨-, hnodup, hcross⟩ := hnodup
  simp only [List.nodup_cons, List.mem_cons, not_or] at hnodup
  obtain ⟨⟨hab, hapost⟩, hbpost, -⟩ := hnodup
  have hapre : a ∉ pre := fun ha => hcross a ha a (by simp) rfl
  have hbpre : b ∉ pre := fun hb => hcross b hb b (by simp) rfl
  refine append_cons_cons_iff.mpr ⟨hleft.congr ?_ ?_, ⟨?_, ?_⟩, .cons_cons ⟨?_, ?_⟩ ?_⟩
  · intro c hc
    rw [List.dropLast_concat] at hc
    simp only [next_setPrev, next_setNext]
    rw [if_neg (ne_of_mem_of_not_mem hc hnpre), if_neg (ne_of_mem_of_not_mem hc hapre)]
  · intro c hc
    have hc' : c ∈ pre ∨ c = a := by simpa using List.mem_of_mem_tail hc
    have hcb : c ≠ b := by
      rintro rfl
      exact hc'.elim hbpre fun heq => hab heq.symm
    have hcn : c ≠ n := by
      rintro rfl
      exact hc'.elim hnpre hna
    simp [prev_setPrev, hcb, hcn]
  · simp [next_setNext, Ne.symm hna]
  · simp [prev_setPrev, hnb]
  · simp [next_setNext]
  · simp [prev_setPrev]
  · refine hright.congr ?_ ?_
    · intro c hc
      have hc' : c = b ∨ c ∈ post := by simpa using List.dropLast_subset _ hc
      have hcn : c ≠ n := by
        rintro rfl
        exact hc'.elim (fun heq => hnb heq) hnpost
      have hca : c ≠ a := by
        rintro rfl
        exact hc'.elim hab hapost
      simp [next_setNext, hcn, hca]
    · intro c hc
      rw [List.tail_cons] at hc
      simp [prev_setPrev, ne_of_mem_of_not_mem hc hbpost, ne_of_mem_of_not_mem hc hnpost]

/-- Take `n` out from between its neighbours `a` and `b`. -/
theorem unlink {k : Links ν} {pre post : List ν} {a n b : ν}
    (h : k.Linked (pre ++ a :: n :: b :: post)) (hnodup : (pre ++ a :: n :: b :: post).Nodup) :
    ((((k.setNext a (some b)).setPrev b (some a)).setNext n none).setPrev n none).Linked
      (pre ++ a :: b :: post) := by
  obtain ⟨hleft, -, hright⟩ := append_cons_cons_iff.mp h
  have hright : k.Linked (b :: post) := (List.isChain_cons_cons.mp hright).2
  rw [List.nodup_append] at hnodup
  obtain ⟨-, hnodup, hcross⟩ := hnodup
  simp only [List.nodup_cons, List.mem_cons, not_or] at hnodup
  obtain ⟨⟨han, hab, hapost⟩, ⟨hnb, hnpost⟩, hbpost, -⟩ := hnodup
  have hapre : a ∉ pre := fun ha => hcross a ha a (by simp) rfl
  have hnpre : n ∉ pre := fun hn => hcross n hn n (by simp) rfl
  have hbpre : b ∉ pre := fun hb => hcross b hb b (by simp) rfl
  refine append_cons_cons_iff.mpr ⟨hleft.congr ?_ ?_, ⟨?_, ?_⟩, hright.congr ?_ ?_⟩
  · intro c hc
    rw [List.dropLast_concat] at hc
    simp [next_setNext, ne_of_mem_of_not_mem hc hnpre, ne_of_mem_of_not_mem hc hapre]
  · intro c hc
    have hc' : c ∈ pre ∨ c = a := by simpa using List.mem_of_mem_tail hc
    have hcb : c ≠ b := by
      rintro rfl
      exact hc'.elim hbpre fun heq => hab heq.symm
    have hcn : c ≠ n := by
      rintro rfl
      exact hc'.elim hnpre fun heq => han heq.symm
    simp [prev_setPrev, hcb, hcn]
  · simp [next_setNext, han]
  · simp [prev_setPrev, Ne.symm hnb]
  · intro c hc
    have hc' : c = b ∨ c ∈ post := by simpa using List.dropLast_subset _ hc
    have hcn : c ≠ n := by
      rintro rfl
      exact hc'.elim (fun heq => hnb heq) hnpost
    have hca : c ≠ a := by
      rintro rfl
      exact hc'.elim hab hapost
    simp [next_setNext, hcn, hca]
  · intro c hc
    rw [List.tail_cons] at hc
    simp [prev_setPrev, ne_of_mem_of_not_mem hc hbpost, ne_of_mem_of_not_mem hc hnpost]

end Linked

section Walk

variable [DecidableEq ν]

/-- The nodes met from `n` on by following the pointer `step` until `stop`, for at most `fuel`
nodes; `none` when the pointer runs out or the fuel does. -/
def walk (step : ν → Option ν) (stop : ν) : Nat → ν → Option (List ν)
  | 0, _ => none
  | fuel + 1, n =>
      if n = stop then some [n]
      else do
        let rest ← walk step stop fuel (← step n)
        return n :: rest

/-- A walk along a sequence in which every node points to the next one. -/
theorem walk_of_isChain {step : ν → Option ν} {stop : ν} (ns : List ν) :
    ∀ {fuel : Nat} {n : ν}, (n :: (ns ++ [stop])).IsChain (fun a b => step a = some b) →
      stop ∉ n :: ns → ns.length + 2 ≤ fuel →
      walk step stop fuel n = some (n :: (ns ++ [stop])) := by
  induction ns with
  | nil =>
      intro fuel n hchain hstop hfuel
      obtain ⟨fuel, rfl⟩ : ∃ m, fuel = m + 2 := ⟨fuel - 2, by simp at hfuel; omega⟩
      have hstep : step n = some stop := (List.isChain_cons_cons.mp hchain).1
      have hne : n ≠ stop := by
        rintro rfl
        simp at hstop
      simp [walk, hne, hstep]
  | cons m ns ih =>
      intro fuel n hchain hstop hfuel
      rw [List.length_cons] at hfuel
      obtain ⟨fuel, rfl⟩ : ∃ m, fuel = m + 1 := ⟨fuel - 1, by omega⟩
      obtain ⟨hstep, hrest⟩ := List.isChain_cons_cons.mp hchain
      have hne : n ≠ stop := by
        rintro rfl
        simp at hstop
      have hrest := ih hrest (fun hmem => hstop (List.mem_cons_of_mem _ hmem))
        (by omega : ns.length + 2 ≤ fuel)
      simp [walk, hne, hstep, hrest]

/-- A chain from `a` to `b`, walked forwards. -/
theorem Linked.walk_next {k : Links ν} {a b : ν} {ns : List ν} {fuel : Nat}
    (h : k.Linked (a :: (ns ++ [b]))) (hnodup : (a :: (ns ++ [b])).Nodup)
    (hfuel : ns.length + 2 ≤ fuel) :
    walk k.next b fuel a = some (a :: (ns ++ [b])) := by
  refine walk_of_isChain ns (h.imp fun _ _ hlink => hlink.1) ?_ hfuel
  rw [← List.cons_append, List.nodup_append] at hnodup
  intro hmem
  exact hnodup.2.2 b hmem b (by simp) rfl

/-- A chain from `a` to `b`, walked backwards. -/
theorem Linked.walk_prev {k : Links ν} {a b : ν} {ns : List ν} {fuel : Nat}
    (h : k.Linked (a :: (ns ++ [b]))) (hnodup : (a :: (ns ++ [b])).Nodup)
    (hfuel : ns.length + 2 ≤ fuel) :
    walk k.prev a fuel b = some (a :: (ns ++ [b])).reverse := by
  have hreverse : (a :: (ns ++ [b])).reverse = b :: (ns.reverse ++ [a]) := by simp
  have hchain : (b :: (ns.reverse ++ [a])).IsChain fun x y => k.prev x = some y := by
    rw [← hreverse, List.isChain_reverse]
    exact h.imp fun _ _ hlink => hlink.2
  rw [hreverse]
  refine walk_of_isChain ns.reverse hchain ?_ (by simpa using hfuel)
  have hfirst := (List.nodup_cons.mp hnodup).1
  simp only [List.mem_append, List.mem_singleton, not_or] at hfirst
  simp [hfirst.1, hfirst.2]

end Walk

end Links

end ClayFigure.Math
