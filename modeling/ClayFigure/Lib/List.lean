/-
# The intrusive lists of `lib/list.c`

A list has a head and a tail node of its own; its members are nodes that live in
other objects, and a member can be in one list at a time. `Holds` says which
sequence each list of a heap holds. Every operation of `list.c` is computed on the
pointers, a null dereference being `none`, and has one specification lemma that
speaks of the sequences only.
-/

import Mathlib.Data.List.Nodup
import ClayFigure.Math.Chain

namespace ClayFigure

open ClayFigure.Math

/-- The nodes of a heap of lists `ι` with members `τ`. -/
inductive Node (ι τ : Type)
  | head (l : ι)
  | tail (l : ι)
  | elem (t : τ)
  deriving DecidableEq, Repr

/-- The links of all nodes of a heap of lists. -/
abbrev Heap (ι τ : Type) := Links (Node ι τ)

namespace Heap

variable {ι τ : Type} [DecidableEq ι] [DecidableEq τ]

/-! ## The code -/

/-- `init_list`. -/
def initList (k : Heap ι τ) (l : ι) : Heap ι τ :=
  (((k.setPrev (.head l) none).setNext (.head l) (some (.tail l))).setPrev
    (.tail l) (some (.head l))).setNext (.tail l) none

/-- `memset` to zero of an object with the list `l` and the member `t` in it. -/
def clear (k : Heap ι τ) (l : ι) (t : τ) : Heap ι τ :=
  let clearNode := fun (k : Heap ι τ) n => (k.setPrev n none).setNext n none
  clearNode (clearNode (clearNode k (.elem t)) (.head l)) (.tail l)

/-- `list_in`. -/
def listIn (k : Heap ι τ) (node inBefore : Node ι τ) : Option (Heap ι τ) := do
  let before ← k.prev inBefore
  let k := k.setNext before (some node)
  let k := k.setPrev node (k.prev inBefore)
  let k := k.setNext node (some inBefore)
  return k.setPrev inBefore (some node)

/-- `list_push`. -/
def listPush (k : Heap ι τ) (l : ι) (node : Node ι τ) : Option (Heap ι τ) := do
  let first ← k.next (.head l)
  listIn k node first

/-- `list_append`. -/
def listAppend (k : Heap ι τ) (l : ι) (node : Node ι τ) : Option (Heap ι τ) :=
  listIn k node (.tail l)

/-- `list_remove`. -/
def listRemove (k : Heap ι τ) (node : Node ι τ) : Option (Heap ι τ) := do
  let before ← k.prev node
  let k := k.setNext before (k.next node)
  let behind ← k.next node
  let k := k.setPrev behind (k.prev node)
  return (k.setNext node none).setPrev node none

/-- `list_pop`: the node taken out and the heap without it. -/
def listPop (k : Heap ι τ) (l : ι) : Option (Node ι τ × Heap ι τ) := do
  let node ← k.next (.head l)
  let k ← listRemove k node
  return (node, k)

/-- The loop of `list_find` from `node` on, for at most `fuel` nodes. -/
def findFrom (k : Heap ι τ) (l : ι) (objnode : Node ι τ) : Nat → Node ι τ → Option Bool
  | 0, _ => none
  | fuel + 1, node =>
      if node = .tail l then some false
      else if node = objnode then some true
      else do findFrom k l objnode fuel (← k.next node)

/-- `list_find`. -/
def listFind (k : Heap ι τ) (l : ι) (objnode : Node ι τ) (fuel : Nat) : Option Bool := do
  findFrom k l objnode fuel (← k.next (.head l))

/-- The node an insertion loop stops at: from `node` on the first that is `before` the new
member, or the tail. -/
def placeFrom (k : Heap ι τ) (l : ι) (before : τ → Bool) : Nat → Node ι τ → Option (Node ι τ)
  | 0, _ => none
  | fuel + 1, node =>
      if node = .tail l then some node
      else
        match node with
        | .elem t => if before t then some node else do placeFrom k l before fuel (← k.next node)
        | _ => none

/-- The loop of `list_traversal` from `node` on, for at most `fuel` nodes; the inner `none` is
`NULL`. -/
def traversalFrom (k : Heap ι τ) (l : ι) (func : τ → Bool) : Nat → Node ι τ → Option (Option τ)
  | 0, _ => none
  | fuel + 1, node =>
      if node = .tail l then some none
      else
        match node with
        | .elem t =>
            if func t then some (some t) else do traversalFrom k l func fuel (← k.next node)
        | _ => none

/-- `list_traversal`. -/
def listTraversal (k : Heap ι τ) (l : ι) (func : τ → Bool) (fuel : Nat) : Option (Option τ) := do
  traversalFrom k l func fuel (← k.next (.head l))

/-- The loop of `list_len` from `node` on, for at most `fuel` nodes; `len` is an `int`. -/
def lenFrom (k : Heap ι τ) (l : ι) : Nat → Node ι τ → Int → Option Int
  | 0, _, _ => none
  | fuel + 1, node, len =>
      if node = .tail l then some len
      else do lenFrom k l fuel (← k.next node) ((len + 1).bmod 0x100000000)

/-- `list_len`. -/
def listLen (k : Heap ι τ) (l : ι) (fuel : Nat) : Option Int := do
  lenFrom k l fuel (← k.next (.head l)) 0

/-- `list_empty`. -/
def listEmpty (k : Heap ι τ) (l : ι) : Bool := k.next (.head l) = some (.tail l)

/-! ## Sequences -/

/-- The nodes of list `l` when it holds `xs`. -/
def nodes (l : ι) (xs : List τ) : List (Node ι τ) := .head l :: (xs.map .elem ++ [.tail l])

/-- Every list in use holds its sequence, no member is in two places, and a list that
is not in use is not linked to anything. -/
structure Holds (k : Heap ι τ) (used : ι → Prop) (contents : ι → List τ) : Prop where
  linked : ∀ l, used l → k.Linked (nodes l (contents l))
  nodup : ∀ l, used l → (contents l).Nodup
  disjoint : ∀ l l', used l → used l' → ∀ t ∈ contents l, t ∈ contents l' → l = l'
  blank : ∀ l, ¬ used l → k.next (.head l) = none

/-- Member `t` is in no list in use. -/
def Loose (used : ι → Prop) (contents : ι → List τ) (t : τ) : Prop :=
  ∀ l, used l → t ∉ contents l

omit [DecidableEq ι] [DecidableEq τ] in
theorem mem_nodes {l : ι} {xs : List τ} {n : Node ι τ} :
    n ∈ nodes l xs ↔ n = .head l ∨ n = .tail l ∨ ∃ t ∈ xs, n = .elem t := by
  simp only [nodes, List.mem_cons, List.mem_append, List.mem_map, List.not_mem_nil, or_false]
  constructor
  · rintro (h | ⟨t, ht, rfl⟩ | h)
    · exact Or.inl h
    · exact Or.inr (Or.inr ⟨t, ht, rfl⟩)
    · exact Or.inr (Or.inl h)
  · rintro (h | h | ⟨t, ht, rfl⟩)
    · exact Or.inl h
    · exact Or.inr (Or.inr h)
    · exact Or.inr (Or.inl ⟨t, ht, rfl⟩)

omit [DecidableEq ι] [DecidableEq τ] in
theorem nodup_nodes {l : ι} {xs : List τ} (hxs : xs.Nodup) : (nodes l xs).Nodup := by
  have hmap : (xs.map (Node.elem (ι := ι))).Nodup :=
    hxs.map fun s t h => Node.elem.inj h
  refine List.nodup_cons.mpr ⟨by simp, ?_⟩
  rw [List.nodup_append]
  exact ⟨hmap, List.nodup_singleton _, by simp⟩

/-- The node behind a place in list `l` with the members `post` behind it. -/
def behind (l : ι) : List τ → Node ι τ
  | [] => .tail l
  | t :: _ => .elem t

omit [DecidableEq ι] [DecidableEq τ] in
@[simp]
theorem behind_nil (l : ι) : behind l ([] : List τ) = .tail l := rfl

omit [DecidableEq ι] [DecidableEq τ] in
@[simp]
theorem behind_cons (l : ι) (t : τ) (post : List τ) : behind l (t :: post) = .elem t := rfl

omit [DecidableEq ι] [DecidableEq τ] in
/-- A place in a list has a node before it and a node behind it. -/
theorem nodes_split (l : ι) (pre post : List τ) :
    ∃ a front back, ∀ mid, nodes l (pre ++ (mid ++ post)) =
      front ++ a :: (mid.map .elem ++ behind l post :: back) := by
  obtain ⟨front, a, hfront⟩ : ∃ front a, Node.head l :: pre.map .elem = front ++ [a] :=
    ⟨_, _, (List.dropLast_append_getLast (List.cons_ne_nil _ _)).symm⟩
  obtain ⟨back, hback⟩ : ∃ back, post.map .elem ++ [Node.tail l] = behind l post :: back := by
    cases post with
    | nil => exact ⟨[], rfl⟩
    | cons t post => exact ⟨_, rfl⟩
  refine ⟨a, front, back, fun mid => ?_⟩
  have hnodes : nodes l (pre ++ (mid ++ post)) =
      (Node.head l :: pre.map .elem) ++ (mid.map .elem ++ (post.map .elem ++ [Node.tail l])) := by
    simp [nodes]
  rw [hnodes, hfront, hback, List.append_assoc]
  rfl

namespace Holds

variable {k k' : Heap ι τ} {used : ι → Prop} {contents : ι → List τ} {l : ι} {t : τ}

omit [DecidableEq ι] [DecidableEq τ] in
/-- A node belongs to one list at most. -/
theorem node_disjoint (h : Holds k used contents) {l' : ι} (hl : used l) (hl' : used l')
    {n : Node ι τ} (hn : n ∈ nodes l (contents l)) (hn' : n ∈ nodes l' (contents l')) :
    l = l' := by
  rw [mem_nodes] at hn hn'
  rcases hn with rfl | rfl | ⟨t, ht, rfl⟩
  · simpa using hn'
  · simpa using hn'
  · obtain ⟨t', ht', heq⟩ : ∃ t' ∈ contents l', Node.elem (ι := ι) t = .elem t' := by
      simpa using hn'
    exact h.disjoint l l' hl hl' t ht (Node.elem.inj heq ▸ ht')

omit [DecidableEq τ] in
/-- An operation on list `l` that leaves the nodes of all other lists alone. -/
theorem update (h : Holds k used contents) (hl : used l) {xs : List τ}
    (hlinked : k'.Linked (nodes l xs)) (hnodup : xs.Nodup)
    (hfresh : ∀ t ∈ xs, t ∈ contents l ∨ Loose used contents t)
    (hframe : ∀ n, n ∉ nodes l (contents l) → n ∉ nodes l xs →
      k'.next n = k.next n ∧ k'.prev n = k.prev n) :
    Holds k' used (Function.update contents l xs) := by
  have hother (l' : ι) (hl' : used l') (hne : l' ≠ l) (t : τ) (ht : t ∈ contents l') :
      t ∉ xs := fun htx =>
    (hfresh t htx).elim (fun hold => hne (h.disjoint l' l hl' hl t ht hold))
      fun hloose => hloose l' hl' ht
  refine ⟨fun l' hl' => ?_, fun l' hl' => ?_, fun l₁ l₂ hl₁ hl₂ t ht₁ ht₂ => ?_,
    fun l' hl' => ?_⟩
  · by_cases hne : l' = l
    · subst hne
      rwa [Function.update_self]
    · rw [Function.update_of_ne hne]
      have hkeep (n : Node ι τ) (hn : n ∈ nodes l' (contents l')) :
          k'.next n = k.next n ∧ k'.prev n = k.prev n := by
        refine hframe n (fun hn' => hne (h.node_disjoint hl' hl hn hn')) fun hn' => ?_
        rw [mem_nodes] at hn hn'
        rcases hn' with rfl | rfl | ⟨t, ht, rfl⟩
        · exact hne (by simpa [eq_comm] using hn)
        · exact hne (by simpa [eq_comm] using hn)
        · exact hother l' hl' hne t (by simpa using hn) ht
      exact (h.linked l' hl').congr (fun a ha => (hkeep a (List.dropLast_subset _ ha)).1)
        fun b hb => (hkeep b (List.mem_of_mem_tail hb)).2
  · by_cases hne : l' = l
    · subst hne
      rwa [Function.update_self]
    · rw [Function.update_of_ne hne]
      exact h.nodup l' hl'
  · by_cases h₁ : l₁ = l <;> by_cases h₂ : l₂ = l
    · exact h₁.trans h₂.symm
    · rw [h₁, Function.update_self] at ht₁
      rw [Function.update_of_ne h₂] at ht₂
      exact absurd ht₁ (hother l₂ hl₂ h₂ t ht₂)
    · rw [Function.update_of_ne h₁] at ht₁
      rw [h₂, Function.update_self] at ht₂
      exact absurd ht₂ (hother l₁ hl₁ h₁ t ht₁)
    · rw [Function.update_of_ne h₁] at ht₁
      rw [Function.update_of_ne h₂] at ht₂
      exact h.disjoint l₁ l₂ hl₁ hl₂ t ht₁ ht₂
  · have hother (ys : List τ) : Node.head l' ∉ nodes l ys := by
      rw [mem_nodes]
      rintro (heq | heq | ⟨t, -, heq⟩)
      · exact hl' (Node.head.inj heq ▸ hl)
      · cases heq
      · cases heq
    rw [(hframe _ (hother _) (hother _)).1]
    exact h.blank l' hl'

/-- `list_in` puts a loose node before a member or the tail. -/
theorem listIn (h : Holds k used contents) (hl : used l) (pre post : List τ)
    (hsplit : contents l = pre ++ post) (ht : Loose used contents t) :
    ∃ k', k.listIn (.elem t) (behind l post) = some k' ∧
      Holds k' used (Function.update contents l (pre ++ t :: post)) := by
  obtain ⟨a, front, back, hnodes⟩ := nodes_split l pre post
  have hold : nodes l (contents l) = front ++ a :: behind l post :: back := by
    rw [hsplit]
    exact hnodes []
  have hnew : nodes l (pre ++ t :: post) = front ++ a :: .elem t :: behind l post :: back :=
    hnodes [t]
  have hlinked := h.linked l hl
  have hnodup := nodup_nodes (l := l) (h.nodup l hl)
  have hmem : Node.elem t ∉ nodes l (contents l) := by
    rw [mem_nodes]
    simpa using ht l hl
  rw [hold] at hlinked hnodup hmem
  have hprev := (Links.Linked.append_cons_cons_iff.mp hlinked).2.1.2
  have hrun : k.listIn (.elem t) (behind l post) =
      some ((((k.setNext a (some (.elem t))).setPrev (.elem t) (some a)).setNext (.elem t)
        (some (behind l post))).setPrev (behind l post) (some (.elem t))) := by
    simp [Heap.listIn, hprev]
  refine ⟨_, hrun, h.update hl ?_ ?_ ?_ ?_⟩
  · rw [hnew]
    exact hlinked.insert hnodup hmem
  · have hxs := h.nodup l hl
    rw [hsplit] at hxs
    rw [List.nodup_middle, List.nodup_cons, ← hsplit]
    exact ⟨ht l hl, hsplit ▸ hxs⟩
  · intro s hs
    rw [hsplit]
    simp only [List.mem_append, List.mem_cons] at hs ⊢
    rcases hs with hs | rfl | hs
    · exact Or.inl (Or.inl hs)
    · exact Or.inr ht
    · exact Or.inl (Or.inr hs)
  · intro n _ hn
    rw [hnew] at hn
    simp only [List.mem_append, List.mem_cons, not_or] at hn
    obtain ⟨-, hna, hnt, hnb, -⟩ := hn
    simp [Links.next_setNext, Links.prev_setPrev, hna, hnt, hnb]

/-- `list_append` of a loose node. -/
theorem listAppend (h : Holds k used contents) (hl : used l) (ht : Loose used contents t) :
    ∃ k', k.listAppend l (.elem t) = some k' ∧
      Holds k' used (Function.update contents l (contents l ++ [t])) :=
  h.listIn hl (contents l) [] (by simp) ht

omit [DecidableEq ι] [DecidableEq τ] in
/-- The first node of a list. -/
theorem next_head (h : Holds k used contents) (hl : used l) :
    k.next (.head l) = some (behind l (contents l)) := by
  have hlinked := h.linked l hl
  cases hxs : contents l with
  | nil =>
      rw [hxs] at hlinked
      exact (List.isChain_cons_cons.mp hlinked).1.1
  | cons t xs =>
      rw [hxs] at hlinked
      exact (List.isChain_cons_cons.mp hlinked).1.1

/-- `list_push` of a loose node. -/
theorem listPush (h : Holds k used contents) (hl : used l) (ht : Loose used contents t) :
    ∃ k', k.listPush l (.elem t) = some k' ∧
      Holds k' used (Function.update contents l (t :: contents l)) := by
  obtain ⟨k', heq, hk'⟩ := h.listIn hl [] (contents l) rfl ht
  refine ⟨k', ?_, hk'⟩
  simp only [Heap.listPush, h.next_head hl]
  exact heq

/-- `list_remove` of a member. -/
theorem listRemove (h : Holds k used contents) (hl : used l) (pre post : List τ)
    (hsplit : contents l = pre ++ t :: post) :
    ∃ k', k.listRemove (.elem t) = some k' ∧
      Holds k' used (Function.update contents l (pre ++ post)) := by
  obtain ⟨a, front, back, hnodes⟩ := nodes_split l pre post
  have hold : nodes l (contents l) = front ++ a :: .elem t :: behind l post :: back := by
    rw [hsplit]
    exact hnodes [t]
  have hnew : nodes l (pre ++ post) = front ++ a :: behind l post :: back := hnodes []
  have hlinked := h.linked l hl
  have hnodup := nodup_nodes (l := l) (h.nodup l hl)
  rw [hold] at hlinked hnodup
  obtain ⟨-, ⟨-, hprev⟩, hrest⟩ := Links.Linked.append_cons_cons_iff.mp hlinked
  have hnext := (List.isChain_cons_cons.mp hrest).1.1
  have hrun : k.listRemove (.elem t) =
      some ((((k.setNext a (some (behind l post))).setPrev (behind l post) (some a)).setNext
        (.elem t) none).setPrev (.elem t) none) := by
    simp [Heap.listRemove, hprev, hnext, Links.next_setNext]
  refine ⟨_, hrun, h.update hl ?_ ?_ ?_ ?_⟩
  · rw [hnew]
    exact hlinked.unlink hnodup
  · have hxs := h.nodup l hl
    rw [hsplit] at hxs
    exact (List.nodup_cons.mp (List.nodup_middle.mp hxs)).2
  · intro s hs
    rw [hsplit]
    simp only [List.mem_append, List.mem_cons] at hs ⊢
    exact Or.inl (hs.elim Or.inl fun hs => Or.inr (Or.inr hs))
  · intro n hn _
    rw [hold] at hn
    simp only [List.mem_append, List.mem_cons, not_or] at hn
    obtain ⟨-, hna, hnt, hnb, -⟩ := hn
    simp [Links.next_setNext, Links.prev_setPrev, hna, hnt, hnb]

omit [DecidableEq τ] in
/-- A member taken out of its list is loose. -/
theorem loose_of_removed (h : Holds k used contents) (hl : used l) (pre post : List τ)
    (hsplit : contents l = pre ++ t :: post) :
    Loose used (Function.update contents l (pre ++ post)) t := by
  intro l' hl' hmem
  by_cases hne : l' = l
  · subst hne
    rw [Function.update_self] at hmem
    have hxs := h.nodup l' hl
    rw [hsplit] at hxs
    exact (List.nodup_cons.mp (List.nodup_middle.mp hxs)).1 hmem
  · rw [Function.update_of_ne hne] at hmem
    exact hne (h.disjoint l' l hl' hl t hmem (by simp [hsplit]))

/-- `list_pop` of a list that is not empty. -/
theorem listPop (h : Holds k used contents) (hl : used l) {xs : List τ}
    (hcons : contents l = t :: xs) :
    ∃ k', k.listPop l = some (.elem t, k') ∧
      Holds k' used (Function.update contents l xs) := by
  obtain ⟨k', heq, hk'⟩ := h.listRemove hl [] xs hcons
  refine ⟨k', ?_, hk'⟩
  have hnext := h.next_head hl
  rw [hcons] at hnext
  simp only [Heap.listPop, hnext, behind, Option.bind_eq_bind, Option.bind_some, heq]
  rfl

theorem listEmpty_iff (h : Holds k used contents) (hl : used l) :
    k.listEmpty l = true ↔ contents l = [] := by
  rw [Heap.listEmpty, decide_eq_true_iff, h.next_head hl]
  cases contents l with
  | nil => simp [behind]
  | cons t xs => simp [behind]

omit [DecidableEq ι] [DecidableEq τ] in
/-- Lists none of whose nodes changed. -/
theorem congr (h : Holds k used contents)
    (hframe : ∀ l, used l → ∀ n ∈ nodes l (contents l),
      k'.next n = k.next n ∧ k'.prev n = k.prev n)
    (hblank : ∀ l, ¬ used l → k'.next (.head l) = none) : Holds k' used contents :=
  ⟨fun l hl => (h.linked l hl).congr
      (fun a ha => (hframe l hl a (List.dropLast_subset _ ha)).1)
      fun b hb => (hframe l hl b (List.mem_of_mem_tail hb)).2,
    h.nodup, h.disjoint, hblank⟩

omit [DecidableEq ι] [DecidableEq τ] in
theorem congr_used (h : Holds k used contents) {used' : ι → Prop}
    (hiff : ∀ l, used l ↔ used' l) : Holds k used' contents := by
  rwa [show used' = used from funext fun l => propext (hiff l).symm]

theorem next_clear (k : Heap ι τ) {n : Node ι τ} (helem : n ≠ .elem t) (hhead : n ≠ .head l)
    (htail : n ≠ .tail l) :
    (k.clear l t).next n = k.next n ∧ (k.clear l t).prev n = k.prev n := by
  simp [Heap.clear, Links.next_setNext, Links.prev_setPrev, helem, hhead, htail]

/-- Zeroing an object whose member is loose ends its list and leaves the others alone. -/
theorem clear (h : Holds k used contents) (ht : Loose used contents t) (l : ι) :
    Holds (k.clear l t) (fun l' => l' ≠ l ∧ used l') contents := by
  have hkeep (l' : ι) (hl' : l' ≠ l ∧ used l') (n : Node ι τ) (hn : n ∈ nodes l' (contents l')) :
      (k.clear l t).next n = k.next n ∧ (k.clear l t).prev n = k.prev n := by
    refine next_clear k ?_ ?_ ?_
    · rintro rfl
      exact ht l' hl'.2 (by simpa [mem_nodes] using hn)
    · rintro rfl
      exact hl'.1 (by simpa [mem_nodes, eq_comm] using hn)
    · rintro rfl
      exact hl'.1 (by simpa [mem_nodes, eq_comm] using hn)
  refine ⟨fun l' hl' => ?_, fun l' hl' => h.nodup l' hl'.2,
    fun l₁ l₂ hl₁ hl₂ => h.disjoint l₁ l₂ hl₁.2 hl₂.2, fun l' hl' => ?_⟩
  · exact (h.linked l' hl'.2).congr
      (fun a ha => (hkeep l' hl' a (List.dropLast_subset _ ha)).1)
      fun b hb => (hkeep l' hl' b (List.mem_of_mem_tail hb)).2
  · by_cases hne : l' = l
    · subst hne
      simp [Heap.clear, Links.next_setNext]
    · rw [(next_clear k (by simp) (by simpa using hne) (by simp)).1]
      exact h.blank l' fun hused => hl' ⟨hne, hused⟩

/-- `init_list` of a list that is not in use. -/
theorem initList (h : Holds k (fun l' => l' ≠ l ∧ used l') contents) :
    Holds (k.initList l) (fun l' => l' = l ∨ used l') (Function.update contents l []) := by
  have hold (l' : ι) (hl' : l' = l ∨ used l') (hne : l' ≠ l) : l' ≠ l ∧ used l' :=
    ⟨hne, hl'.resolve_left hne⟩
  have hkeep {n : Node ι τ} (hhead : n ≠ .head l) (htail : n ≠ .tail l) :
      (k.initList l).next n = k.next n ∧ (k.initList l).prev n = k.prev n := by
    simp [Heap.initList, Links.next_setNext, Links.prev_setPrev, hhead, htail]
  refine ⟨fun l' hl' => ?_, fun l' hl' => ?_, fun l₁ l₂ hl₁ hl₂ t ht₁ ht₂ => ?_,
    fun l' hl' => ?_⟩
  · by_cases hne : l' = l
    · subst hne
      rw [Function.update_self]
      refine .cons_cons ⟨?_, ?_⟩ (.singleton _)
      · simp [Heap.initList, Links.next_setNext]
      · simp [Heap.initList, Links.prev_setPrev]
    · rw [Function.update_of_ne hne]
      have hnodes (n : Node ι τ) (hn : n ∈ nodes l' (contents l')) :
          n ≠ .head l ∧ n ≠ .tail l := by
        constructor <;> rintro rfl <;> exact hne (by simpa [mem_nodes, eq_comm] using hn)
      exact (h.linked l' (hold l' hl' hne)).congr
        (fun a ha => (hkeep (hnodes a (List.dropLast_subset _ ha)).1
          (hnodes a (List.dropLast_subset _ ha)).2).1)
        fun b hb => (hkeep (hnodes b (List.mem_of_mem_tail hb)).1
          (hnodes b (List.mem_of_mem_tail hb)).2).2
  · by_cases hne : l' = l
    · subst hne
      simp
    · rw [Function.update_of_ne hne]
      exact h.nodup l' (hold l' hl' hne)
  · have h₁ : l₁ ≠ l := by
      rintro rfl
      simp at ht₁
    have h₂ : l₂ ≠ l := by
      rintro rfl
      simp at ht₂
    rw [Function.update_of_ne h₁] at ht₁
    rw [Function.update_of_ne h₂] at ht₂
    exact h.disjoint l₁ l₂ (hold l₁ hl₁ h₁) (hold l₂ hl₂ h₂) t ht₁ ht₂
  · have hne : l' ≠ l := fun heq => hl' (Or.inl heq)
    rw [(hkeep (by simpa using hne) (by simp)).1]
    exact h.blank l' fun hused => hl' (Or.inr hused.2)

/-- Lists that have been initialized one after the other. -/
theorem initLists (τ : Type) [DecidableEq τ] (ls : List ι) (hls : ls.Nodup) :
    Holds (ls.foldr (fun l k => k.initList l) (⟨fun _ => none, fun _ => none⟩ : Heap ι τ))
      (· ∈ ls) fun _ => [] := by
  induction ls with
  | nil => exact ⟨by simp, by simp, by simp, fun _ _ => rfl⟩
  | cons l ls ih =>
      obtain ⟨hl, hls⟩ := List.nodup_cons.mp hls
      have hold : ∀ l', l' ∈ ls ↔ l' ≠ l ∧ l' ∈ ls := by
        intro l'
        constructor
        · intro hmem
          refine ⟨?_, hmem⟩
          rintro rfl
          exact hl hmem
        · exact And.right
      have hnew := ((ih hls).congr_used hold).initList
      rw [Function.update_eq_self_iff.mpr rfl] at hnew
      exact hnew.congr_used fun l' => List.mem_cons.symm

/-- An object set up anew: zeroed when it is handed out and again when it is initialized,
and its list made empty. -/
theorem clear_initList (h : Holds k used contents) (ht : Loose used contents t) (l : ι) :
    Holds (((k.clear l t).clear l t).initList l) (fun l' => l' = l ∨ used l')
      (Function.update contents l []) := by
  have htwice := (h.clear ht l).clear (fun l' hl' => ht l' hl'.2) l
  refine htwice.initList.congr_used fun l' => ?_
  by_cases hne : l' = l <;> simp [hne]

omit [DecidableEq ι] [DecidableEq τ] in
/-- The node behind a member. -/
theorem next_elem (h : Holds k used contents) (hl : used l) {pre post : List τ}
    (hsplit : contents l = pre ++ t :: post) : k.next (.elem t) = some (behind l post) := by
  obtain ⟨a, front, back, hnodes⟩ := nodes_split l pre post
  have hlinked := h.linked l hl
  rw [hsplit, show pre ++ t :: post = pre ++ ([t] ++ post) from rfl, hnodes] at hlinked
  have hrest := (Links.Linked.append_cons_cons_iff.mp hlinked).2.2
  exact (List.isChain_cons_cons.mp hrest).1.1

omit [DecidableEq ι] [DecidableEq τ] in
/-- The node behind a member points back to it. -/
theorem prev_behind (h : Holds k used contents) (hl : used l) {pre post : List τ}
    (hsplit : contents l = pre ++ t :: post) : k.prev (behind l post) = some (.elem t) := by
  obtain ⟨a, front, back, hnodes⟩ := nodes_split l pre post
  have hlinked := h.linked l hl
  rw [hsplit, show pre ++ t :: post = pre ++ ([t] ++ post) from rfl, hnodes] at hlinked
  have hrest := (Links.Linked.append_cons_cons_iff.mp hlinked).2.2
  exact (List.isChain_cons_cons.mp hrest).1.2

/-- The loop of `list_find` decides membership in the rest of the list. -/
theorem findFrom (h : Holds k used contents) (hl : used l) {fuel : Nat} :
    ∀ pre post : List τ, contents l = pre ++ post → post.length < fuel →
      k.findFrom l (.elem t) fuel (behind l post) = some (decide (t ∈ post)) := by
  induction fuel with
  | zero => exact fun _ _ _ hlen => absurd hlen (by omega)
  | succ fuel ih =>
      intro pre post hsplit hlen
      cases post with
      | nil => simp [Heap.findFrom]
      | cons s post =>
          rw [List.length_cons] at hlen
          have hrest := ih (pre ++ [s]) post (by simpa using hsplit) (by omega)
          have hnext := h.next_elem hl hsplit
          by_cases hst : s = t
          · subst hst
            simp [Heap.findFrom]
          · have hne : t ≠ s := Ne.symm hst
            simp [Heap.findFrom, hst, hnext, hrest, hne]

/-- `list_find` decides membership. -/
theorem listFind (h : Holds k used contents) (hl : used l) {fuel : Nat}
    (hfuel : (contents l).length < fuel) :
    k.listFind l (.elem t) fuel = some (decide (t ∈ contents l)) := by
  simp only [Heap.listFind, h.next_head hl, Option.bind_eq_bind, Option.bind_some]
  exact h.findFrom hl [] (contents l) rfl hfuel

/-- The loop of `list_find` does not find a node that is no member of any list. -/
theorem findFrom_of_not_elem (h : Holds k used contents) (hl : used l) {n : Node ι τ}
    (hn : ∀ t, Node.elem t ≠ n) {fuel : Nat} :
    ∀ pre post : List τ, contents l = pre ++ post → post.length < fuel →
      k.findFrom l n fuel (behind l post) = some false := by
  induction fuel with
  | zero => exact fun _ _ _ hlen => absurd hlen (Nat.not_lt_zero _)
  | succ fuel ih =>
      intro pre post hsplit hlen
      cases post with
      | nil => simp [Heap.findFrom]
      | cons s post =>
          rw [List.length_cons] at hlen
          have hrest :=
            ih (pre ++ [s]) post (by simpa using hsplit) (Nat.lt_of_succ_lt_succ hlen)
          simp [Heap.findFrom, hn s, h.next_elem hl hsplit, hrest]

/-- `list_find` of any node: only members are found, in the list they are in. -/
theorem listFind_node (h : Holds k used contents) (hl : used l) (n : Node ι τ) {fuel : Nat}
    (hfuel : (contents l).length < fuel) :
    k.listFind l n fuel = some (decide (n ∈ (contents l).map .elem)) := by
  by_cases hn : ∀ t, Node.elem t ≠ n
  · have hmem : n ∉ (contents l).map .elem := by
      intro hmem
      obtain ⟨t, -, rfl⟩ := List.mem_map.mp hmem
      exact hn t rfl
    rw [decide_eq_false hmem]
    simp only [Heap.listFind, h.next_head hl, Option.bind_eq_bind, Option.bind_some]
    exact h.findFrom_of_not_elem hl hn [] (contents l) rfl hfuel
  · simp only [not_forall, not_not] at hn
    obtain ⟨t, rfl⟩ := hn
    rw [h.listFind hl hfuel]
    simp

/-- The loop of `list_len` adds the members of the rest, in the arithmetic of an `int`. -/
theorem lenFrom (h : Holds k used contents) (hl : used l) {fuel : Nat} :
    ∀ (pre post : List τ) (n : Int), contents l = pre ++ post → post.length < fuel →
      k.lenFrom l fuel (behind l post) (n.bmod 0x100000000) =
        some ((n + post.length).bmod 0x100000000) := by
  induction fuel with
  | zero => exact fun _ _ _ _ hlen => absurd hlen (Nat.not_lt_zero _)
  | succ fuel ih =>
      intro pre post n hsplit hlen
      cases post with
      | nil => simp [Heap.lenFrom]
      | cons x post =>
          rw [List.length_cons] at hlen
          have hrest := ih (pre ++ [x]) post (n + 1) (by simpa using hsplit)
            (Nat.lt_of_succ_lt_succ hlen)
          have hlen' : n + ((x :: post).length : Int) = n + 1 + (post.length : Int) := by
            rw [List.length_cons]
            omega
          rw [hlen', ← hrest, Heap.lenFrom, behind_cons, if_neg (by simp), h.next_elem hl hsplit,
            Int.bmod_add_bmod]
          rfl

/-- `list_len` counts the members. -/
theorem listLen (h : Holds k used contents) (hl : used l) {fuel : Nat}
    (hfuel : (contents l).length < fuel) :
    k.listLen l fuel = some (((contents l).length : Int).bmod 0x100000000) := by
  have hrun := h.lenFrom hl [] (contents l) 0 rfl hfuel
  rw [Int.zero_bmod, Int.zero_add] at hrun
  simp only [Heap.listLen, h.next_head hl, Option.bind_eq_bind, Option.bind_some]
  exact hrun

/-- The loop of `list_traversal` stops at the first member of the rest that `func` accepts. -/
theorem traversalFrom (h : Holds k used contents) (hl : used l) (func : τ → Bool) {fuel : Nat} :
    ∀ pre post, contents l = pre ++ post → post.length < fuel →
      k.traversalFrom l func fuel (behind l post) = some (post.find? func) := by
  induction fuel with
  | zero => exact fun _ _ _ hlen => absurd hlen (Nat.not_lt_zero _)
  | succ fuel ih =>
      intro pre post hsplit hlen
      cases post with
      | nil => simp [Heap.traversalFrom]
      | cons x post =>
          cases hfunc : func x with
          | true => simp [Heap.traversalFrom, hfunc]
          | false =>
              rw [List.length_cons] at hlen
              have hrest :=
                ih (pre ++ [x]) post (by simpa using hsplit) (Nat.lt_of_succ_lt_succ hlen)
              simp [Heap.traversalFrom, hfunc, h.next_elem hl hsplit, hrest]

/-- `list_traversal` finds the first member that `func` accepts. -/
theorem listTraversal (h : Holds k used contents) (hl : used l) (func : τ → Bool) {fuel : Nat}
    (hfuel : (contents l).length < fuel) :
    k.listTraversal l func fuel = some ((contents l).find? func) := by
  simp only [Heap.listTraversal, h.next_head hl, Option.bind_eq_bind, Option.bind_some]
  exact h.traversalFrom hl func [] (contents l) rfl hfuel

/-- An insertion loop stops somewhere in the list. -/
theorem placeFrom (h : Holds k used contents) (hl : used l) (before : τ → Bool) {fuel : Nat} :
    ∀ pre post, contents l = pre ++ post → post.length < fuel →
      ∃ mid back, post = mid ++ back ∧
        k.placeFrom l before fuel (behind l post) = some (behind l back) := by
  induction fuel with
  | zero => exact fun _ _ _ hlen => absurd hlen (Nat.not_lt_zero _)
  | succ fuel ih =>
      intro pre post hsplit hlen
      cases post with
      | nil => exact ⟨[], [], rfl, by simp [Heap.placeFrom]⟩
      | cons x post =>
          cases hbefore : before x with
          | true => exact ⟨[], x :: post, rfl, by simp [Heap.placeFrom, hbefore]⟩
          | false =>
              rw [List.length_cons] at hlen
              obtain ⟨mid, back, rfl, hplace⟩ :=
                ih (pre ++ [x]) post (by simpa using hsplit) (Nat.lt_of_succ_lt_succ hlen)
              have hnext := h.next_elem hl hsplit
              exact ⟨x :: mid, back, rfl, by simp [Heap.placeFrom, hbefore, hnext, hplace]⟩

end Holds

end Heap

end ClayFigure
