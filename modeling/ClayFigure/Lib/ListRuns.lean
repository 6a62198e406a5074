/-
# Runs of list operations

A program that only calls the operations of `list.c` on a heap of well-formed lists.
What the calls do to the sequences is stated apart from the pointers (`apply`), and
each call on the pointers follows it. After any run the chain of each list, walked in
either direction, is its sequence, and the lists no call was about keep every pointer.
-/

import Mathlib.Data.List.Perm.Subperm
import Mathlib.Data.List.TakeWhile
import ClayFigure.Lib.List

namespace ClayFigure

open ClayFigure.Math

namespace Heap

variable {ι τ : Type} [DecidableEq ι] [DecidableEq τ]

/-- All lists of the heap are well formed and hold these sequences; a member of `τ` in
none of them is a node that is in no list. -/
abbrev WellFormed (k : Heap ι τ) (contents : ι → List τ) : Prop := k.Holds (fun _ => True) contents

/-! ## Operations -/

/-- A call of an operation on list `l`. -/
inductive Call (ι τ : Type)
  | push (l : ι) (t : τ)
  | append (l : ι) (t : τ)
  | inBefore (l : ι) (t member : τ)
  | inBeforeTail (l : ι) (t : τ)
  | remove (l : ι) (t : τ)
  | pop (l : ι)
  deriving DecidableEq, Repr

namespace Call

/-- The list the call is about. -/
def list : Call ι τ → ι
  | .push l _ | .append l _ | .inBefore l _ _ | .inBeforeTail l _ | .remove l _ | .pop l => l

/-- The call on the pointers, with the node it returns. `list_in` and `list_remove` are not
told the list. -/
def exec (k : Heap ι τ) : Call ι τ → Option (List (Node ι τ) × Heap ι τ)
  | .push l t => (k.listPush l (.elem t)).map ([], ·)
  | .append l t => (k.listAppend l (.elem t)).map ([], ·)
  | .inBefore _ t member => (k.listIn (.elem t) (.elem member)).map ([], ·)
  | .inBeforeTail l t => (k.listIn (.elem t) (.tail l)).map ([], ·)
  | .remove _ t => (k.listRemove (.elem t)).map ([], ·)
  | .pop l => (k.listPop l).map fun popped => ([popped.1], popped.2)

/-- The sequence of the list after the call. -/
def edit : Call ι τ → List τ → List τ
  | .push _ t, xs => t :: xs
  | .append _ t, xs => xs ++ [t]
  | .inBefore _ t member, xs => xs.takeWhile (· ≠ member) ++ t :: xs.dropWhile (· ≠ member)
  | .inBeforeTail _ t, xs => xs ++ [t]
  | .remove _ t, xs => xs.erase t
  | .pop _, xs => xs.tail

/-- What the call does to the sequences. -/
def apply (contents : ι → List τ) (c : Call ι τ) : ι → List τ :=
  Function.update contents c.list (c.edit (contents c.list))

/-- The member the call returns. -/
def popped (contents : ι → List τ) : Call ι τ → List τ
  | .pop l => (contents l).take 1
  | _ => []

/-- The call is one the callers make: what is put in is in no list, what is removed or
inserted before is a member, and what is popped is not empty. -/
def Allowed (contents : ι → List τ) : Call ι τ → Prop
  | .push _ t | .append _ t | .inBeforeTail _ t => Loose (fun _ => True) contents t
  | .inBefore l t member => Loose (fun _ => True) contents t ∧ member ∈ contents l
  | .remove l t => t ∈ contents l
  | .pop l => contents l ≠ []

end Call

/-- A run of calls on the pointers, with the nodes they return. -/
def execAll (k : Heap ι τ) : List (Call ι τ) → Option (List (Node ι τ) × Heap ι τ)
  | [] => some ([], k)
  | c :: calls => do
      let (node, k) ← c.exec k
      let (nodes, k) ← execAll k calls
      return (node ++ nodes, k)

/-- What a run does to the sequences. -/
def applyAll (contents : ι → List τ) (calls : List (Call ι τ)) : ι → List τ :=
  calls.foldl Call.apply contents

/-- The members a run returns. -/
def poppedAll (contents : ι → List τ) : List (Call ι τ) → List τ
  | [] => []
  | c :: calls => c.popped contents ++ poppedAll (c.apply contents) calls

/-- Each call of the run is one the callers make. -/
def AllowedAll (contents : ι → List τ) : List (Call ι τ) → Prop
  | [] => True
  | c :: calls => c.Allowed contents ∧ AllowedAll (c.apply contents) calls

/-! ## What a call leaves alone -/

/-- `list_in` writes the new node and its two neighbours. -/
theorem listIn_frame {k k' : Heap ι τ} {node inBefore n : Node ι τ}
    (hrun : k.listIn node inBefore = some k') (hnode : n ≠ node) (hbehind : n ≠ inBefore)
    (hbefore : k.prev inBefore ≠ some n) : k'.next n = k.next n ∧ k'.prev n = k.prev n := by
  cases hprev : k.prev inBefore with
  | none => simp [listIn, hprev] at hrun
  | some before =>
      have hne : n ≠ before := by
        rintro rfl
        exact hbefore hprev
      simp only [listIn, hprev, Option.bind_eq_bind, Option.bind_some, Option.pure_def,
        Option.some.injEq] at hrun
      subst hrun
      simp [Links.next_setNext, Links.prev_setPrev, hnode, hbehind, hne]

/-- `list_remove` writes the node and its two neighbours. -/
theorem listRemove_frame {k k' : Heap ι τ} {node n : Node ι τ}
    (hrun : k.listRemove node = some k') (hnode : n ≠ node)
    (hbefore : k.prev node ≠ some n) (hbehind : k.next node ≠ some n) :
    k'.next n = k.next n ∧ k'.prev n = k.prev n := by
  cases hprev : k.prev node with
  | none => simp [listRemove, hprev] at hrun
  | some before =>
      cases hnext : k.next node with
      | none => simp [listRemove, hprev, hnext, Links.next_setNext] at hrun
      | some behind =>
          have hne : n ≠ before := by
            rintro rfl
            exact hbefore hprev
          have hne' : n ≠ behind := by
            rintro rfl
            exact hbehind hnext
          simp only [listRemove, hprev, hnext, Links.next_setNext, ite_self,
            Option.bind_eq_bind, Option.bind_some, Option.pure_def, Option.some.injEq] at hrun
          subst hrun
          simp [Links.next_setNext, Links.prev_setPrev, hnode, hne, hne']

omit [DecidableEq ι] [DecidableEq τ] in
theorem dropLast_nodes (l : ι) (xs : List τ) :
    (nodes l xs).dropLast = .head l :: xs.map .elem := by
  rw [nodes, ← List.cons_append, List.dropLast_concat]

omit [DecidableEq ι] [DecidableEq τ] in
theorem tail_nodes (l : ι) (xs : List τ) : (nodes l xs).tail = xs.map .elem ++ [.tail l] := rfl

namespace Holds

variable {k k' : Heap ι τ} {used : ι → Prop} {contents : ι → List τ} {l l' : ι} {t : τ}

omit [DecidableEq ι] [DecidableEq τ] in
/-- The neighbours of a node of list `l` are not in another list. -/
theorem prev_ne (h : Holds k used contents) (hl : used l) (hl' : used l') (hne : l' ≠ l)
    {b n : Node ι τ} (hb : b ∈ (nodes l (contents l)).tail) (hn : n ∈ nodes l' (contents l')) :
    k.prev b ≠ some n := by
  obtain ⟨a, ha, heq⟩ := (h.linked l hl).prev_mem b hb
  rw [heq]
  rintro ⟨⟩
  exact hne (h.node_disjoint hl' hl hn ha)

omit [DecidableEq ι] [DecidableEq τ] in
theorem next_ne (h : Holds k used contents) (hl : used l) (hl' : used l') (hne : l' ≠ l)
    {a n : Node ι τ} (ha : a ∈ (nodes l (contents l)).dropLast)
    (hn : n ∈ nodes l' (contents l')) : k.next a ≠ some n := by
  obtain ⟨b, hb, heq⟩ := (h.linked l hl).next_mem a ha
  rw [heq]
  rintro ⟨⟩
  exact hne (h.node_disjoint hl' hl hn hb)

/-- An insertion into list `l` leaves the nodes of every other list alone. -/
theorem listIn_frame (h : Holds k used contents) (hl : used l) (hl' : used l') (hne : l' ≠ l)
    (ht : Loose used contents t) {b n : Node ι τ} (hb : b ∈ (nodes l (contents l)).tail)
    (hrun : k.listIn (.elem t) b = some k') (hn : n ∈ nodes l' (contents l')) :
    k'.next n = k.next n ∧ k'.prev n = k.prev n := by
  refine Heap.listIn_frame hrun ?_ ?_ (h.prev_ne hl hl' hne hb hn)
  · rintro rfl
    exact ht l' hl' (by simpa [mem_nodes] using hn)
  · rintro rfl
    exact hne (h.node_disjoint hl' hl hn (List.mem_of_mem_tail hb))

/-- Taking a member out of list `l` leaves the nodes of every other list alone. -/
theorem listRemove_frame (h : Holds k used contents) (hl : used l) (hl' : used l')
    (hne : l' ≠ l) (ht : t ∈ contents l) (hrun : k.listRemove (.elem t) = some k')
    {n : Node ι τ} (hn : n ∈ nodes l' (contents l')) :
    k'.next n = k.next n ∧ k'.prev n = k.prev n := by
  have htail : Node.elem t ∈ (nodes l (contents l)).tail := by simp [tail_nodes, ht]
  have hlast : Node.elem t ∈ (nodes l (contents l)).dropLast := by simp [dropLast_nodes, ht]
  refine Heap.listRemove_frame hrun ?_ (h.prev_ne hl hl' hne htail hn)
    (h.next_ne hl hl' hne hlast hn)
  rintro rfl
  exact hne (h.node_disjoint hl' hl hn (List.mem_of_mem_tail htail))

end Holds

omit [DecidableEq ι] [DecidableEq τ] in
theorem behind_mem_tail_nodes (l : ι) (pre post : List τ) :
    behind l post ∈ (nodes l (pre ++ post)).tail := by
  cases post with
  | nil => simp [tail_nodes]
  | cons t post => simp [tail_nodes]

/-! ## One call -/

/-- The nodes of all lists but `l` keep their pointers. -/
def Untouched (k k' : Heap ι τ) (contents : ι → List τ) (l : ι) : Prop :=
  ∀ l', l' ≠ l → ∀ n ∈ nodes l' (contents l'), k'.next n = k.next n ∧ k'.prev n = k.prev n

namespace WellFormed

variable {k : Heap ι τ} {contents : ι → List τ} {t : τ}

/-- `list_in` at any place of list `l`. -/
theorem listIn (h : k.WellFormed contents) (l : ι) (pre post : List τ)
    (hsplit : contents l = pre ++ post) (ht : Loose (fun _ => True) contents t) :
    ∃ k', k.listIn (.elem t) (behind l post) = some k' ∧
      k'.WellFormed (Function.update contents l (pre ++ t :: post)) ∧
      k.Untouched k' contents l := by
  obtain ⟨k', hrun, hk'⟩ := Holds.listIn h trivial pre post hsplit ht
  refine ⟨k', hrun, hk', fun l' hne n hn => ?_⟩
  have hplace : behind l post ∈ (nodes l (contents l)).tail := by
    rw [hsplit]
    exact behind_mem_tail_nodes l pre post
  exact Holds.listIn_frame h trivial trivial hne ht hplace hrun hn

/-- `list_remove` of any member of list `l`. -/
theorem listRemove (h : k.WellFormed contents) (l : ι) (pre post : List τ)
    (hsplit : contents l = pre ++ t :: post) :
    ∃ k', k.listRemove (.elem t) = some k' ∧
      k'.WellFormed (Function.update contents l (pre ++ post)) ∧ k.Untouched k' contents l := by
  obtain ⟨k', hrun, hk'⟩ := Holds.listRemove h trivial pre post hsplit
  refine ⟨k', hrun, hk', fun l' hne n hn => ?_⟩
  have ht : t ∈ contents l := by simp [hsplit]
  exact Holds.listRemove_frame h trivial trivial hne ht hrun hn

/-- A call on the pointers does to the sequences what the call is for. -/
theorem exec (h : k.WellFormed contents) {c : Call ι τ} (hc : c.Allowed contents) :
    ∃ k', c.exec k = some ((c.popped contents).map .elem, k') ∧
      k'.WellFormed (c.apply contents) ∧ k.Untouched k' contents c.list := by
  cases c with
  | push l t =>
      obtain ⟨k', hrun, hk'⟩ := h.listIn l [] (contents l) rfl hc
      refine ⟨k', ?_, hk'⟩
      simp [Call.exec, Call.popped, Heap.listPush, h.next_head trivial, hrun]
  | append l t =>
      obtain ⟨k', hrun, hk'⟩ := h.listIn l (contents l) [] (by simp) hc
      refine ⟨k', ?_, hk'⟩
      rw [behind_nil] at hrun
      simp [Call.exec, Call.popped, Heap.listAppend, hrun]
  | inBefore l t member =>
      obtain ⟨hloose, hmember⟩ := hc
      have hbehind : behind l ((contents l).dropWhile (· ≠ member)) = .elem member := by
        cases hdrop : (contents l).dropWhile (· ≠ member) with
        | nil =>
            rw [List.dropWhile_eq_nil_iff] at hdrop
            exact absurd (hdrop member hmember) (by simp)
        | cons x xs =>
            have hx := List.head?_dropWhile_not (fun y => decide (y ≠ member)) (contents l)
            rw [hdrop] at hx
            simpa using hx
      obtain ⟨k', hrun, hk'⟩ := h.listIn l _ _ List.takeWhile_append_dropWhile.symm hloose
      refine ⟨k', ?_, hk'⟩
      rw [hbehind] at hrun
      simp [Call.exec, Call.popped, hrun]
  | inBeforeTail l t =>
      obtain ⟨k', hrun, hk'⟩ := h.listIn l (contents l) [] (by simp) hc
      refine ⟨k', ?_, hk'⟩
      rw [behind_nil] at hrun
      simp [Call.exec, Call.popped, hrun]
  | remove l t =>
      obtain ⟨pre, post, -, hsplit, herase⟩ := List.exists_erase_eq hc
      obtain ⟨k', hrun, hk'⟩ := h.listRemove l pre post hsplit
      refine ⟨k', by simp [Call.exec, Call.popped, hrun], ?_⟩
      rwa [← herase] at hk'
  | pop l =>
      obtain ⟨t, xs, hcons⟩ := List.exists_cons_of_ne_nil hc
      obtain ⟨k', hrun, hk'⟩ := h.listRemove l [] xs hcons
      refine ⟨k', ?_, ?_⟩
      · have hnext := h.next_head (l := l) trivial
        rw [hcons, behind_cons] at hnext
        simp [Call.exec, Call.popped, Heap.listPop, hnext, hrun, hcons]
      · have htail : Call.apply contents (.pop l) = Function.update contents l ([] ++ xs) := by
          simp [Call.apply, Call.list, Call.edit, hcons]
        rwa [htail]

/-! ## Runs -/

/-- A run of calls on the pointers follows the run on the sequences, and a list that no call
was about keeps its sequence and every pointer of its nodes. -/
theorem execAll (h : k.WellFormed contents) {calls : List (Call ι τ)}
    (hcalls : AllowedAll contents calls) :
    ∃ k', k.execAll calls = some ((poppedAll contents calls).map .elem, k') ∧
      k'.WellFormed (applyAll contents calls) ∧
      ∀ l, (∀ c ∈ calls, c.list ≠ l) → applyAll contents calls l = contents l ∧
        ∀ n ∈ nodes l (contents l), k'.next n = k.next n ∧ k'.prev n = k.prev n := by
  induction calls generalizing k contents with
  | nil => exact ⟨k, rfl, h, fun l _ => ⟨rfl, fun n _ => ⟨rfl, rfl⟩⟩⟩
  | cons c calls ih =>
      obtain ⟨hc, hcalls⟩ := hcalls
      obtain ⟨k₁, hfirst, hk₁, hframe₁⟩ := h.exec hc
      obtain ⟨k₂, hrest, hk₂, hframe₂⟩ := ih hk₁ hcalls
      refine ⟨k₂, ?_, hk₂, fun l hl => ?_⟩
      · simp [Heap.execAll, hfirst, hrest, poppedAll]
      · have hne : l ≠ c.list := fun heq => hl c (by simp) heq.symm
        have hkeep : c.apply contents l = contents l := Function.update_of_ne hne _ _
        obtain ⟨hsame, hnodes⟩ := hframe₂ l fun d hd => hl d (by simp [hd])
        rw [hkeep] at hsame hnodes
        refine ⟨hsame, fun n hn => ?_⟩
        obtain ⟨hnext, hprev⟩ := hframe₁ l hne n hn
        obtain ⟨hnext', hprev'⟩ := hnodes n hn
        exact ⟨hnext'.trans hnext, hprev'.trans hprev⟩

end WellFormed

/-! ## What the lists show -/

/-- What a walk along the pointers of list `l` and the read operations of `list.c` find, for
any sufficient number of loop passes. -/
structure Shows (k : Heap ι τ) (l : ι) (xs : List τ) : Prop where
  forward : ∀ fuel, xs.length + 2 ≤ fuel →
    Links.walk k.next (.tail l) fuel (.head l) = some (nodes l xs)
  backward : ∀ fuel, xs.length + 2 ≤ fuel →
    Links.walk k.prev (.head l) fuel (.tail l) = some (nodes l xs).reverse
  find : ∀ n fuel, xs.length < fuel → k.listFind l n fuel = some (decide (n ∈ xs.map .elem))
  len : ∀ fuel, xs.length < fuel → k.listLen l fuel = some ((xs.length : Int).bmod 0x100000000)
  empty : k.listEmpty l = xs.isEmpty
  traversal : ∀ func fuel, xs.length < fuel → k.listTraversal l func fuel = some (xs.find? func)

theorem WellFormed.shows {k : Heap ι τ} {contents : ι → List τ} (h : k.WellFormed contents)
    (l : ι) : k.Shows l (contents l) where
  forward fuel hfuel :=
    (h.linked l trivial).walk_next (nodup_nodes (h.nodup l trivial)) (by simpa using hfuel)
  backward fuel hfuel :=
    (h.linked l trivial).walk_prev (nodup_nodes (h.nodup l trivial)) (by simpa using hfuel)
  find n fuel hfuel := h.listFind_node trivial n hfuel
  len fuel hfuel := h.listLen trivial hfuel
  empty := by
    rw [Bool.eq_iff_iff, h.listEmpty_iff trivial, List.isEmpty_iff]
  traversal func fuel hfuel := h.listTraversal trivial func hfuel

/-- The nodes lie in memory: `sizeof(list_node_t)` bytes each, no two of them overlapping,
within the 32 GiB that the frame bitmap covers. -/
structure Placed (addr : Node ι τ → Nat) (ns : List (Node ι τ)) : Prop where
  inside : ∀ n ∈ ns, addr n + 16 ≤ 0x800000000
  disjoint : ∀ n ∈ ns, ∀ m ∈ ns, n ≠ m → addr n + 16 ≤ addr m ∨ addr m + 16 ≤ addr n

omit [DecidableEq ι] [DecidableEq τ] in
/-- No list in memory is too long for an `int`. -/
theorem Placed.length_lt {addr : Node ι τ → Nat} {l : ι} {xs : List τ} (hxs : xs.Nodup)
    (h : Placed addr (nodes l xs)) : xs.length < 0x80000000 := by
  -- The nodes of the list start in different blocks of 16 bytes.
  have hblocks : ((nodes l xs).map fun n => addr n / 16).Nodup := by
    refine (nodup_nodes hxs).map_on fun n hn m hm hsame => ?_
    by_contra hne
    rcases h.disjoint n hn m hm hne with hlt | hlt <;> omega
  have hsub : (nodes l xs).map (fun n => addr n / 16) ⊆ List.range (0x80000000) := by
    intro i hi
    obtain ⟨n, hn, rfl⟩ := List.mem_map.mp hi
    have := h.inside n hn
    exact List.mem_range.mpr (by omega)
  have hcount := (List.subperm_of_subset hblocks hsub).length_le
  rw [List.length_range, List.length_map] at hcount
  simp only [nodes, List.length_cons, List.length_append, List.length_map] at hcount
  omega

theorem Shows.len_eq {k : Heap ι τ} {l : ι} {xs : List τ} (h : k.Shows l xs)
    (hlen : xs.length < 0x80000000) {fuel : Nat} (hfuel : xs.length < fuel) :
    k.listLen l fuel = some (xs.length : Int) := by
  rw [h.len fuel hfuel, Int.bmod_eq_of_le (by omega) (by omega)]

/-- Every run of calls on well-formed lists does to each list what the calls are for: the
nodes that `list_pop` returns, both chains of every list and the read operations show the
sequences, and every list that no call was about is untouched. -/
theorem execAll_refines {k : Heap ι τ} {contents : ι → List τ} (h : k.WellFormed contents)
    {calls : List (Call ι τ)} (hcalls : AllowedAll contents calls) :
    ∃ k', k.execAll calls = some ((poppedAll contents calls).map .elem, k') ∧
      (∀ l, k'.Shows l (applyAll contents calls l)) ∧
      (∀ l addr, Placed addr (nodes l (applyAll contents calls l)) →
        ∀ fuel, (applyAll contents calls l).length < fuel →
          k'.listLen l fuel = some ((applyAll contents calls l).length : Int)) ∧
      ∀ l, (∀ c ∈ calls, c.list ≠ l) → applyAll contents calls l = contents l ∧
        ∀ n ∈ nodes l (contents l), k'.next n = k.next n ∧ k'.prev n = k.prev n := by
  obtain ⟨k', hrun, hk', hframe⟩ := h.execAll hcalls
  exact ⟨k', hrun, hk'.shows,
    fun l addr haddr fuel hfuel =>
      (hk'.shows l).len_eq (haddr.length_lt (hk'.nodup l trivial)) hfuel, hframe⟩

/-- Two lists that have just been set up. -/
def twoLists : Heap Bool Nat :=
  [false, true].foldr (fun l k => initList k l) ⟨fun _ => none, fun _ => none⟩

theorem twoLists_wellFormed : twoLists.WellFormed fun _ => [] := by
  refine Holds.congr_used (Holds.initLists Nat [false, true] (by decide)) fun l => ?_
  cases l <;> simp

/-- Calls of every kind on both lists. -/
def twoListsCalls : List (Call Bool Nat) :=
  [.push false 1, .append false 2, .inBefore false 3 2, .append true 4, .remove false 1,
    .pop false, .inBeforeTail true 1]

/-- The calls leave one member in the first list and two in the second. -/
theorem execAll_refines_twoLists :
    ∃ k', twoLists.execAll twoListsCalls = some ([.elem 3], k') ∧
      Links.walk k'.next (.tail false) 3 (.head false) =
        some [.head false, .elem 2, .tail false] ∧
      Links.walk k'.prev (.head true) 4 (.tail true) =
        some [.tail true, .elem 1, .elem 4, .head true] := by
  have hcalls : AllowedAll (fun _ => []) twoListsCalls := by
    simp [AllowedAll, twoListsCalls, Call.Allowed, Call.apply, Call.list, Call.edit, Loose]
  obtain ⟨k', hrun, hshows, -⟩ := execAll_refines twoLists_wellFormed hcalls
  exact ⟨k', hrun, (hshows false).forward 3 (by decide), (hshows true).backward 4 (by decide)⟩

end Heap

end ClayFigure
