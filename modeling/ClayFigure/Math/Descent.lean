/-
# Going down without marks

Every node holds items in an order, and an item may have a node below it. A search that takes each
item of a node and then goes down below it, without marks, ends just if no path comes to a cycle;
what it takes are the items of all nodes that lie below, and it takes each of them once if the nodes
form a forest.
-/

import ClayFigure.Math.Acyclic

namespace ClayFigure.Math

open Relation

universe u v

variable {α : Type u} {ε : Type v} (items : α → List ε) (child : ε → Option α)

/-- The items from a node on in the order of the search, not more than a number of nodes deep. -/
def below : Nat → α → List ε
  | 0, _ => []
  | n + 1, a => (items a).flatMap fun x => x :: (child x).elim [] (below n)

/-- No path from the node is longer. -/
def Bottoms : Nat → α → Prop
  | 0, _ => False
  | n + 1, a => ∀ x ∈ items a, ∀ b, child x = some b → Bottoms n b

/-- One node is right below another. -/
def Leads (a b : α) : Prop := ∃ x ∈ items a, child x = some b

/-- Among the nodes of a set that is closed downwards every item is in one node, at most one item
leads to a node, and there is no cycle. -/
structure Forest (R : α → Prop) : Prop where
  closed : ∀ a b, R a → Leads items child a b → R b
  nodup : ∀ a, R a → (items a).Nodup
  owner : ∀ a b x, R a → R b → x ∈ items a → x ∈ items b → a = b
  parent : ∀ a b x y c, R a → R b → x ∈ items a → y ∈ items b → child x = some c →
    child y = some c → x = y
  acyclic : ∀ a, R a → ¬ TransGen (Leads items child) a a

variable {items child} {a b : α} {n : Nat}

/-! ## Ending -/

theorem Bottoms.succ (h : Bottoms items child n a) : Bottoms items child (n + 1) a := by
  induction n generalizing a with
  | zero => exact h.elim
  | succ n ih => exact fun x hx b hb => ih (h x hx b hb)

theorem Bottoms.mono {m : Nat} (h : Bottoms items child n a) (hle : n ≤ m) :
    Bottoms items child m a := by
  induction hle with
  | refl => exact h
  | step _ ih => exact ih.succ

/-- A number that is enough for each member of a list is found for all of them. -/
theorem exists_forall_mem {P : Nat → ε → Prop} (hmono : ∀ x m n, m ≤ n → P m x → P n x)
    {l : List ε} (h : ∀ x ∈ l, ∃ n, P n x) : ∃ n, ∀ x ∈ l, P n x := by
  induction l with
  | nil => exact ⟨0, List.forall_mem_nil _⟩
  | cons x l ih =>
      rw [List.forall_mem_cons] at h
      obtain ⟨⟨n, hn⟩, h⟩ := h
      obtain ⟨m, hm⟩ := ih h
      refine ⟨max n m, List.forall_mem_cons.mpr ⟨hmono x n _ (Nat.le_max_left n m) hn, ?_⟩⟩
      exact fun y hy => hmono y m _ (Nat.le_max_right n m) (hm y hy)

/-- Some depth is enough just if every path from the node ends. -/
theorem exists_bottoms_iff :
    (∃ n, Bottoms items child n a) ↔ Acc (fun b a => Leads items child a b) a := by
  constructor
  · rintro ⟨n, h⟩
    induction n generalizing a with
    | zero => exact h.elim
    | succ n ih =>
        refine ⟨a, fun b hedge => ?_⟩
        obtain ⟨x, hx, hb⟩ := hedge
        exact ih (h x hx b hb)
  · intro h
    induction h with
    | intro a _ ih =>
        have hall : ∃ n, ∀ x ∈ items a, ∀ b, child x = some b → Bottoms items child n b := by
          refine exists_forall_mem (fun x m n hle h b hb => (h b hb).mono hle) fun x hx => ?_
          cases hchild : child x with
          | none => exact ⟨0, fun b hb => by cases hb⟩
          | some b =>
              obtain ⟨n, hn⟩ := ih b ⟨x, hx, hchild⟩
              refine ⟨n, ?_⟩
              rintro _ ⟨⟩
              exact hn
        obtain ⟨n, hn⟩ := hall
        exact ⟨n + 1, hn⟩

/-- In a finite type the search ends just if it comes to no cycle. -/
theorem exists_bottoms_iff_of_finite [Finite α] : (∃ n, Bottoms items child n a) ↔
    ∀ b, ReflTransGen (Leads items child) a b → ¬ TransGen (Leads items child) b b :=
  exists_bottoms_iff.trans acc_iff_of_finite

/-! ## What is found -/

theorem mem_below_succ {x : ε} : x ∈ below items child (n + 1) a ↔
    ∃ y ∈ items a, x = y ∨ ∃ b, child y = some b ∧ x ∈ below items child n b := by
  rw [below, List.mem_flatMap]
  refine exists_congr fun y => and_congr_right fun _ => ?_
  rw [List.mem_cons]
  cases child y with
  | none => simp only [Option.elim_none, List.not_mem_nil, reduceCtorEq, false_and, exists_false]
  | some b => simp only [Option.elim_some, Option.some_inj, exists_eq_left']

theorem exists_of_mem_below {x : ε} (h : x ∈ below items child n a) :
    ∃ b, ReflTransGen (Leads items child) a b ∧ x ∈ items b := by
  induction n generalizing a with
  | zero => cases h
  | succ n ih =>
      obtain ⟨y, hy, rfl | ⟨b, hb, hx⟩⟩ := mem_below_succ.mp h
      · exact ⟨a, .refl, hy⟩
      · obtain ⟨c, hpath, hx⟩ := ih hx
        exact ⟨c, .head ⟨y, hy, hb⟩ hpath, hx⟩

/-- The items of all nodes below. -/
theorem mem_below_iff (h : Bottoms items child n a) {x : ε} : x ∈ below items child n a ↔
    ∃ b, ReflTransGen (Leads items child) a b ∧ x ∈ items b := by
  refine ⟨exists_of_mem_below, ?_⟩
  rintro ⟨b, hpath, hx⟩
  induction n generalizing a with
  | zero => exact h.elim
  | succ n ih =>
      rw [mem_below_succ]
      rcases hpath.cases_head with rfl | ⟨c, ⟨y, hy, hc⟩, hpath⟩
      · exact ⟨x, hx, .inl rfl⟩
      · exact ⟨y, hy, .inr ⟨c, hc, ih (h y hy c hc) hpath⟩⟩

/-! ## Passing a state along -/

variable {σ : Type*} {f : σ → ε → Option σ}

/-- A loop over a list fails if one of its steps does, and otherwise is a fold. -/
theorem foldlM_eq_some_iff {P : ε → Prop} {g : σ → ε → σ}
    (hf : ∀ x s t, f s x = some t ↔ P x ∧ t = g s x) (l : List ε) (s t : σ) :
    l.foldlM f s = some t ↔ (∀ x ∈ l, P x) ∧ t = l.foldl g s := by
  induction l generalizing s with
  | nil =>
      refine ⟨fun h => ⟨List.forall_mem_nil _, (Option.some.inj h).symm⟩, fun h => ?_⟩
      rw [h.2]
      rfl
  | cons x l ih =>
      rw [List.foldlM_cons, Option.bind_eq_bind, Option.bind_eq_some_iff, List.forall_mem_cons]
      simp only [hf, ih, List.foldl_cons]
      constructor
      · rintro ⟨_, ⟨hx, rfl⟩, hl, ht⟩
        exact ⟨⟨hx, hl⟩, ht⟩
      · rintro ⟨⟨hx, hl⟩, ht⟩
        exact ⟨_, ⟨hx, rfl⟩, hl, ht⟩

theorem foldlM_flatMap {β : Type*} (l : List β) (g : β → List ε) (s : σ) :
    (l.flatMap g).foldlM f s = l.foldlM (fun s y => (g y).foldlM f s) s := by
  induction l generalizing s with
  | nil => rfl
  | cons y l ih =>
      rw [List.flatMap_cons, List.foldlM_append, List.foldlM_cons]
      simp only [ih]

/-! ## Forests -/

namespace Forest

variable {R : α → Prop}

theorem closed_path (h : Forest items child R) (ha : R a)
    (hpath : ReflTransGen (Leads items child) a b) : R b := by
  induction hpath with
  | refl => exact ha
  | tail _ hedge ih => exact h.closed _ _ ih hedge

/-- Of two nodes above a third one is above the other. -/
theorem total (h : Forest items child R) (ha : R a) (hb : R b) {c : α}
    (hac : ReflTransGen (Leads items child) a c) (hbc : ReflTransGen (Leads items child) b c) :
    ReflTransGen (Leads items child) a b ∨ ReflTransGen (Leads items child) b a := by
  induction hac with
  | refl => exact .inr hbc
  | @tail c d hac hedge ih =>
      rcases hbc.cases_tail with rfl | ⟨c', hbc', hedge'⟩
      · exact .inl (hac.tail hedge)
      · obtain ⟨x, hx, hxd⟩ := hedge
        obtain ⟨y, hy, hyd⟩ := hedge'
        have hc := h.closed_path ha hac
        have hc' := h.closed_path hb hbc'
        obtain rfl := h.parent c c' x y d hc hc' hx hy hxd hyd
        obtain rfl := h.owner c c' x hc hc' hx hy
        exact ih hbc'

/-- Below two nodes neither of which is above the other, nothing is found twice. -/
theorem disjoint (h : Forest items child R) (ha : R a) (hb : R b)
    (hab : ¬ ReflTransGen (Leads items child) a b) (hba : ¬ ReflTransGen (Leads items child) b a)
    (m n : Nat) : (below items child m a).Disjoint (below items child n b) := by
  intro x hxa hxb
  obtain ⟨c, hac, hxc⟩ := exists_of_mem_below hxa
  obtain ⟨d, hbd, hxd⟩ := exists_of_mem_below hxb
  obtain rfl := h.owner c d x (h.closed_path ha hac) (h.closed_path hb hbd) hxc hxd
  exact (h.total ha hb hac hbd).elim hab hba

/-- An item is not found below itself. -/
theorem not_mem_below (h : Forest items child R) (ha : R a) {x y : ε} (hx : x ∈ items a)
    (hy : y ∈ items a) (hb : child y = some b) : x ∉ below items child n b := by
  intro hbelow
  obtain ⟨c, hbc, hxc⟩ := exists_of_mem_below hbelow
  have hedge : Leads items child a b := ⟨y, hy, hb⟩
  obtain rfl := h.owner a c x ha (h.closed_path (h.closed a b ha hedge) hbc) hx hxc
  exact h.acyclic a ha (.head' hedge hbc)

/-- The nodes below two items of a node are not above each other. -/
theorem not_above (h : Forest items child R) (ha : R a) {x y : ε} (hx : x ∈ items a)
    (hy : y ∈ items a) (hne : x ≠ y) {b c : α} (hb : child x = some b) (hc : child y = some c) :
    ¬ ReflTransGen (Leads items child) b c := by
  intro hpath
  have hedge : Leads items child a b := ⟨x, hx, hb⟩
  rcases hpath.cases_tail with rfl | ⟨d, hpath, z, hz, hzc⟩
  · exact hne (h.parent a a x y _ ha ha hx hy hb hc)
  · -- the one node above `c` is `a`, which is then below itself
    have hd := h.closed_path (h.closed a b ha hedge) hpath
    obtain rfl := h.parent a d y z c ha hd hy hz hc hzc
    obtain rfl := h.owner a d y ha hd hy hz
    exact h.acyclic a ha (.head' hedge hpath)

/-- Below two items of a node nothing is found twice. -/
theorem disjoint_items (h : Forest items child R) (ha : R a) {x y : ε} (hx : x ∈ items a)
    (hy : y ∈ items a) (hne : x ≠ y) : List.Disjoint (x :: (child x).elim [] (below items child n))
      (y :: (child y).elim [] (below items child n)) := by
  intro z hzx hzy
  rw [List.mem_cons] at hzx hzy
  cases hb : child x with
  | none =>
      rw [hb, Option.elim_none] at hzx
      obtain rfl := hzx.resolve_right List.not_mem_nil
      cases hc : child y with
      | none =>
          rw [hc, Option.elim_none] at hzy
          exact hne (hzy.resolve_right List.not_mem_nil)
      | some c =>
          rw [hc, Option.elim_some] at hzy
          exact hzy.elim hne (h.not_mem_below ha hx hy hc)
  | some b =>
      rw [hb, Option.elim_some] at hzx
      cases hc : child y with
      | none =>
          rw [hc, Option.elim_none] at hzy
          obtain rfl := hzy.resolve_right List.not_mem_nil
          exact hzx.elim (Ne.symm hne) (h.not_mem_below ha hy hx hb)
      | some c =>
          rw [hc, Option.elim_some] at hzy
          rcases hzx with rfl | hzx
          · exact hzy.elim hne (h.not_mem_below ha hx hy hc)
          · rcases hzy with rfl | hzy
            · exact h.not_mem_below ha hy hx hb hzx
            · exact h.disjoint (h.closed a b ha ⟨x, hx, hb⟩) (h.closed a c ha ⟨y, hy, hc⟩)
                (h.not_above ha hx hy hne hb hc) (h.not_above ha hy hx hne.symm hc hb) n n hzx hzy

/-- Nothing is found twice. -/
theorem nodup_below (h : Forest items child R) (ha : R a) (n : Nat) :
    (below items child n a).Nodup := by
  induction n generalizing a with
  | zero => exact List.nodup_nil
  | succ n ih =>
      rw [below, List.nodup_flatMap]
      refine ⟨fun x hx => ?_, ?_⟩
      · cases hchild : child x with
        | none => exact List.nodup_singleton x
        | some b =>
            rw [Option.elim_some, List.nodup_cons]
            exact ⟨h.not_mem_below ha hx hx hchild, ih (h.closed a b ha ⟨x, hx, hchild⟩)⟩
      · refine (h.nodup a ha).imp_of_mem fun hx hy hne => ?_
        exact h.disjoint_items ha hx hy hne

end Forest

end ClayFigure.Math
