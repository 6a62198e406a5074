/-
# Taking the tables of a process apart

`free_page_table` walks the tables of the user half and gives everything back on the way: each
frame that is mapped, and each table after what is below it. As a list of calls this is one call
for each path of the tree, so when no table and no frame is on two paths each is given back once.
-/

import ClayFigure.Task.ProcFrames

namespace ClayFigure

open ClayFigure.Math

namespace BlockState

open Allocator

/-! ## Runs of releases -/

/-- Allowed calls one after the other. -/
inductive Run : BlockState → List BlockCall → BlockState → Prop
  | nil {s : BlockState} : Run s [] s
  | cons {s t u : BlockState} {c : BlockCall} {calls : List BlockCall} (hallowed : BlockAllowed s c)
      (hstep : blockStep s c = some t) (hrest : Run t calls u) : Run s (c :: calls) u

/-- What a release gives back is held. -/
def Held (s : BlockState) : BlockCall → Prop
  | .kfree b => ∃ g, (b, g) ∈ s.live
  | .frames (.free f n) => n = 1 ∧ (f, 1) ∈ s.others
  | _ => False

/-- Releases that can be made one after the other. -/
structure Ready (bytes : Nat → Byte) (s : BlockState) (calls : List BlockCall) : Prop where
  inv : ∃ contents group, BlockInv s contents group
  same : s.alloc.bytes = bytes
  nodup : calls.Nodup
  held : ∀ c ∈ calls, s.Held c

variable {s t u : BlockState} {calls rest : List BlockCall} {bytes : Nat → Byte} {c : BlockCall}
  {contents : Group → List Nat} {group : Nat → Group}

theorem Run.append (h : s.Run calls t) (h' : t.Run rest u) : s.Run (calls ++ rest) u := by
  induction h with
  | nil => exact h'
  | cons hallowed hstep _ ih => exact .cons hallowed hstep (ih h')

/-- A release leaves in place what it does not give back. -/
theorem Ready.step (h : Ready bytes s (c :: rest)) :
    ∃ t, blockStep s c = some t ∧ BlockAllowed s c ∧ Ready bytes t rest := by
  obtain ⟨contents, group, hinv⟩ := h.inv
  obtain ⟨hnot, hnodup⟩ := List.nodup_cons.mp h.nodup
  have hheld := h.held c List.mem_cons_self
  have hrest (d : BlockCall) (hd : d ∈ rest) : d ≠ c ∧ s.Held d :=
    ⟨fun heq => hnot (heq ▸ hd), h.held d (List.mem_cons_of_mem _ hd)⟩
  cases c with
  | kmalloc | store => exact hheld.elim
  | kfree b =>
      obtain ⟨g, hb⟩ := hheld
      obtain ⟨a, hfree, -, contents', hinv'⟩ := hinv.kfree hb
      refine ⟨_, by simp only [blockStep, hfree, Option.bind_eq_bind, Option.bind_some]; rfl,
        ⟨g, hb⟩, ⟨contents', group, hinv'⟩, (bytes_kfree hfree).trans h.same, hnodup,
        fun d hd => ?_⟩
      obtain ⟨hne, hheld⟩ := hrest d hd
      cases d with
      | kmalloc | store => exact hheld
      | kfree b' =>
          obtain ⟨g', hb'⟩ := hheld
          refine ⟨g', List.mem_filter.mpr ⟨hb', ?_⟩⟩
          rw [decide_eq_true_eq]
          rintro rfl
          exact hne rfl
      | frames d =>
          cases d with
          | alloc n => exact hheld
          | free f n => exact hheld
  | frames d =>
      cases d with
      | alloc n => exact hheld.elim
      | free f n =>
          obtain ⟨rfl, hf⟩ := hheld
          obtain ⟨mem, -, hstep, hinv', -⟩ := freePhysicalPage_spec hinv hf
          refine ⟨_, hstep, trivial, ⟨contents, group, hinv'⟩, h.same, hnodup, fun d hd => ?_⟩
          obtain ⟨hne, hheld⟩ := hrest d hd
          cases d with
          | kmalloc | store => exact hheld
          | kfree b => exact hheld
          | frames d =>
              cases d with
              | alloc n => exact hheld
              | free f' n =>
                  obtain ⟨rfl, hf'⟩ := hheld
                  refine ⟨rfl, (List.mem_erase_of_ne ?_).mpr hf'⟩
                  rintro heq
                  rw [Prod.mk.injEq] at heq
                  exact hne (by rw [heq.1])

/-- After some of the releases the others can still be made. -/
theorem Ready.after (h : Ready bytes s (calls ++ rest)) (hrun : s.Run calls t) :
    Ready bytes t rest := by
  induction hrun with
  | nil => exact h
  | cons hallowed hstep _ ih =>
      obtain ⟨u, hu, -, hready⟩ := h.step
      rw [hstep, Option.some.injEq] at hu
      exact ih (hu ▸ hready)

theorem Ready.one (h : Ready bytes s (c :: rest)) :
    ∃ t, blockStep s c = some t ∧ s.Run [c] t := by
  obtain ⟨t, ht, hallowed, -⟩ := h.step
  exact ⟨t, ht, .cons hallowed ht .nil⟩

/-- A loop whose passes are runs of releases is the run of all of them. -/
theorem foldlM_run {body : BlockState → Nat → Option BlockState} {cs : Nat → List BlockCall}
    {is : List Nat} (hbody : ∀ i ∈ is, ∀ u rest, Ready bytes u (cs i ++ rest) →
      ∃ t, body u i = some t ∧ u.Run (cs i) t) :
    ∀ u rest, Ready bytes u (is.flatMap cs ++ rest) →
      ∃ t, is.foldlM body u = some t ∧ u.Run (is.flatMap cs) t := by
  induction is with
  | nil => exact fun u _ _ => ⟨u, rfl, .nil⟩
  | cons i is ih =>
      intro u rest hready
      rw [List.flatMap_cons, List.append_assoc] at hready
      obtain ⟨v, hv, hrun⟩ := hbody i List.mem_cons_self u _ hready
      obtain ⟨t, ht, hrest⟩ := ih (fun j hj => hbody j (List.mem_cons_of_mem _ hj)) v rest
        (hready.after hrun)
      refine ⟨t, ?_, ?_⟩
      · rw [List.foldlM_cons, hv]
        exact ht
      · rw [List.flatMap_cons]
        exact hrun.append hrest

/-- What a call gives back. -/
def Given (calls : List BlockCall) : Set Resource := {r | match r with
  | .block b _ => .kfree b ∈ calls
  | .frames f n => .frames (.free f n) ∈ calls}

/-- A release gives back one thing. -/
theorem acts_release (hinv : BlockInv s contents group) (hheld : s.Held c)
    (hstep : blockStep s c = some t) : ∃ r ∈ s.held, s.Acts t {r} ∅ ∧
      ∀ r' ∈ s.held, r' ∈ Given [c] ↔ r' = r := by
  cases c with
  | kmalloc | store => exact hheld.elim
  | kfree b =>
      obtain ⟨g, hb⟩ := hheld
      obtain ⟨a, hfree, ht⟩ := Option.bind_eq_some_iff.mp hstep
      obtain rfl := Option.some.inj ht
      have hsame {b' : Nat} {g' : Group} (hb' : (b', g') ∈ s.live) :
          b' = b ↔ b' = b ∧ g' = g := by
        refine ⟨fun heq => ⟨heq, ?_⟩, And.left⟩
        subst heq
        exact live_unique hinv hb' hb
      refine ⟨.block b g, hb, .of_erase ?_ fun _ _ _ x _ => congrFun (bytes_kfree hfree) x,
        fun r' hr' => ?_⟩
      · ext r'
        cases r' with
        | frames a n => simp [held]
        | block b' g' =>
            simp only [held, Set.mem_ofPred_eq, List.mem_filter, decide_eq_true_eq, Set.mem_sdiff,
              Set.mem_singleton_iff, Resource.block.injEq]
            exact and_congr_right fun hb' => not_congr (hsame hb')
      · cases r' with
        | frames a n => simp [Given]
        | block b' g' =>
            simp only [Given, Set.mem_ofPred_eq, List.mem_singleton, BlockCall.kfree.injEq,
              Resource.block.injEq]
            exact hsame hr'
  | frames d =>
      cases d with
      | alloc n => exact hheld.elim
      | free f n =>
          obtain ⟨rfl, hf⟩ := hheld
          obtain ⟨mem, -, hfree, -⟩ := freePhysicalPage_spec hinv hf
          obtain rfl := Option.some.inj (hfree.symm.trans hstep)
          refine ⟨.frames f 1, hf, acts_erase hinv mem, fun r' _ => ?_⟩
          cases r' <;> simp [Given]

/-- Releases give back what they say, and nothing else. -/
theorem Ready.acts (h : Ready bytes s calls) (hrun : s.Run calls t) :
    s.Acts t (Given calls ∩ s.held) ∅ := by
  induction hrun with
  | @nil s =>
      have hnone : Given [] ∩ s.held = ∅ := by
        ext r
        cases r <;> simp [Given]
      rw [hnone]
      exact .of_held rfl (Set.empty_subset _) fun _ _ _ _ _ => rfl
  | @cons s t u c calls hallowed hstep _ ih =>
      obtain ⟨contents, group, hinv⟩ := h.inv
      obtain ⟨t', ht', -, hready⟩ := h.step
      obtain rfl := Option.some.inj (ht'.symm.trans hstep)
      obtain ⟨r, hr, hacts, hgiven⟩ := acts_release hinv (h.held c List.mem_cons_self) hstep
      have hheld : t'.held = s.held \ {r} := by rw [hacts.after, Set.union_empty]
      have hsplit : Given (c :: calls) ∩ s.held = {r} ∪ Given calls ∩ t'.held := by
        have hcons (r' : Resource) : r' ∈ Given (c :: calls) ↔
            r' ∈ Given [c] ∨ r' ∈ Given calls := by
          cases r' <;> simp [Given]
        ext r'
        rw [hheld, Set.mem_inter_iff, hcons, Set.mem_union, Set.mem_inter_iff, Set.mem_sdiff,
          Set.mem_singleton_iff]
        constructor
        · rintro ⟨hin, hr'⟩
          by_cases heq : r' = r
          · exact Or.inl heq
          · exact Or.inr ⟨hin.resolve_left (mt (hgiven r' hr').mp heq), hr', heq⟩
        · rintro (rfl | ⟨hin, hr', -⟩)
          · exact ⟨Or.inl ((hgiven r' hr).mpr rfl), hr⟩
          · exact ⟨Or.inr hin, hr'⟩
      have hrest : Given calls ∩ t'.held ⊆ s.held \ {r} :=
        Set.inter_subset_right.trans hheld.subset
      have hframe := hacts.frame (hrest.trans Set.sdiff_subset)
        (Set.disjoint_left.mpr fun r' hr' => (hrest hr').2)
      rw [Set.empty_union, ← hsplit] at hframe
      exact hframe.trans (ih hready)

end BlockState

namespace Memory

/-! ## What is given back -/

/-- What is given back at the end of a walk: a frame behind the last level, a table in front. -/
def release (depth len next : Nat) : BlockCall :=
  if len = depth then .frames (.free next 1) else .kfree (physToVirt next)

/-- The calls that take a table apart, with `depth` levels below it. -/
def tableCalls (mem : Memory) : Nat → Nat → List BlockCall
  | 0, table => [.frames (.free table 1)]
  | depth + 1, table =>
      ((List.range 512).flatMap fun i =>
        match entryLink (mem (table + 8 * i)) with
        | none => []
        | some next => tableCalls mem depth next) ++ [.kfree (physToVirt table)]

/-- The call is that at the end of the path. -/
def CallAt (mem : Memory) (depth table : Nat) (path : List (Fin 512)) (c : BlockCall) : Prop :=
  path.length ≤ depth ∧ ∃ next, mem.walk table path = some next ∧
    c = release depth path.length next

/-- The calls for one entry. -/
def entryCalls (mem : Memory) (depth table i : Nat) : List BlockCall :=
  match entryLink (mem (table + 8 * i)) with
  | none => []
  | some next => tableCalls mem depth next

variable {mem : Memory} {depth table : Nat} {c : BlockCall} {i : Fin 512}
  {path : List (Fin 512)}

theorem tableCalls_succ : mem.tableCalls (depth + 1) table =
    (List.range 512).flatMap (mem.entryCalls depth table) ++ [.kfree (physToVirt table)] := rfl

theorem callAt_cons : mem.CallAt (depth + 1) table (i :: path) c ↔
    ∃ next, entryLink (mem.tableWord table i) = some next ∧ mem.CallAt depth next path c := by
  unfold CallAt
  constructor
  · rintro ⟨hlen, last, hwalk, rfl⟩
    obtain ⟨next, hlink, hwalk⟩ := Option.bind_eq_some_iff.mp hwalk
    refine ⟨next, hlink, Nat.le_of_succ_le_succ hlen, last, hwalk, ?_⟩
    simp [release]
  · rintro ⟨next, hlink, hlen, last, hwalk, rfl⟩
    refine ⟨Nat.succ_le_succ hlen, last, ?_, by simp [release]⟩
    rw [walk_of_entryLink hlink]
    exact hwalk

theorem callAt_nil : mem.CallAt (depth + 1) table [] c ↔ c = .kfree (physToVirt table) := by
  constructor
  · rintro ⟨-, next, hwalk, rfl⟩
    rw [← Option.some.inj hwalk]
    rfl
  · rintro rfl
    exact ⟨Nat.zero_le _, table, rfl, rfl⟩

theorem mem_tableCalls :
    c ∈ mem.tableCalls depth table ↔ ∃ path, mem.CallAt depth table path c := by
  induction depth generalizing table with
  | zero =>
      rw [tableCalls, List.mem_singleton]
      constructor
      · rintro rfl
        exact ⟨[], le_rfl, table, rfl, rfl⟩
      · rintro ⟨path, hlen, next, hwalk, rfl⟩
        obtain rfl := List.length_eq_zero_iff.mp (Nat.le_zero.mp hlen)
        rw [← Option.some.inj hwalk]
        rfl
  | succ depth ih =>
      have hentry (i : Fin 512) : c ∈ mem.entryCalls depth table i ↔
          ∃ path, mem.CallAt (depth + 1) table (i :: path) c := by
        have hword : mem (table + 8 * (i : Nat)) = mem.tableWord table i := rfl
        unfold entryCalls
        rw [hword]
        constructor
        · intro hc
          split at hc
          · exact absurd hc List.not_mem_nil
          · next next hlink =>
              obtain ⟨path, hpath⟩ := ih.mp hc
              exact ⟨path, callAt_cons.mpr ⟨next, hlink, hpath⟩⟩
        · rintro ⟨path, hpath⟩
          obtain ⟨next, hlink, hpath⟩ := callAt_cons.mp hpath
          rw [hlink]
          exact ih.mpr ⟨path, hpath⟩
      rw [tableCalls_succ, List.mem_append, List.mem_flatMap, List.mem_singleton]
      constructor
      · rintro (⟨i, hi, hc⟩ | rfl)
        · obtain ⟨path, hpath⟩ := (hentry ⟨i, List.mem_range.mp hi⟩).mp hc
          exact ⟨_, hpath⟩
        · exact ⟨[], callAt_nil.mpr rfl⟩
      · rintro ⟨path, hpath⟩
        cases path with
        | nil => exact Or.inr (callAt_nil.mp hpath)
        | cons i path =>
            exact Or.inl ⟨i, List.mem_range.mpr i.isLt, (hentry i).mpr ⟨path, hpath⟩⟩

/-- When no call is that of two paths, none is made twice. -/
theorem nodup_tableCalls (hone : ∀ path path' c, mem.CallAt depth table path c →
      mem.CallAt depth table path' c → path = path') : (mem.tableCalls depth table).Nodup := by
  induction depth generalizing table with
  | zero => exact List.nodup_singleton _
  | succ depth ih =>
      have hentry {i : Nat} (hi : i < 512) {c : BlockCall}
          (hc : c ∈ mem.entryCalls depth table i) :
          ∃ path, mem.CallAt (depth + 1) table (⟨i, hi⟩ :: path) c := by
        unfold entryCalls at hc
        split at hc
        · exact absurd hc List.not_mem_nil
        · next next hlink =>
            obtain ⟨path, hpath⟩ := mem_tableCalls.mp hc
            exact ⟨path, callAt_cons.mpr ⟨next, hlink, hpath⟩⟩
      rw [tableCalls_succ]
      refine List.nodup_append.mpr ⟨List.nodup_flatMap.mpr ⟨fun i hi => ?_, ?_⟩,
        List.nodup_singleton _, fun c hc d hd heq => ?_⟩
      · unfold entryCalls
        split
        · exact List.nodup_nil
        · next next hlink =>
            refine ih fun path path' c hpath hpath' => ?_
            have hlink : entryLink (mem.tableWord table ⟨i, List.mem_range.mp hi⟩) = some next :=
              hlink
            have heq := hone _ _ c (callAt_cons.mpr ⟨next, hlink, hpath⟩)
              (callAt_cons.mpr ⟨next, hlink, hpath'⟩)
            exact (List.cons.inj heq).2
      · refine List.nodup_range.imp_of_mem fun {i j} hi hj hne => ?_
        rw [Function.onFun, List.disjoint_left]
        intro c hc hc'
        obtain ⟨path, hpath⟩ := hentry (List.mem_range.mp hi) hc
        obtain ⟨path', hpath'⟩ := hentry (List.mem_range.mp hj) hc'
        have heq := hone _ _ c hpath hpath'
        exact hne (Fin.mk.inj (List.cons.inj heq).1)
      · obtain ⟨i, hi, hc⟩ := List.mem_flatMap.mp hc
        obtain ⟨path, hpath⟩ := hentry (List.mem_range.mp hi) hc
        rw [List.mem_singleton] at hd
        exact List.cons_ne_nil _ _ (hone _ _ c hpath (callAt_nil.mpr (heq.trans hd)))

end Memory

namespace BlockState

/-! ## The three levels -/

section Levels

open Memory

variable {s t u : BlockState} {rest : List BlockCall} {bytes : Nat → Byte} {mem : Memory}
  {pml4t table depth i n : Nat} {path : List (Fin 512)}

theorem load_congr (h : u.alloc.bytes = s.alloc.bytes) (a : Nat) : u.load a = s.load a :=
  Allocator.loadWord_congr fun _ _ => congrFun h _

/-- A frame is given back. -/
theorem Ready.oneFrame (h : Ready bytes u (mem.tableCalls 0 table ++ rest)) :
    ∃ t, u.freePhysicalPage table 1 = some t ∧ u.Run (mem.tableCalls 0 table) t := by
  obtain ⟨contents, group, hinv⟩ := h.inv
  obtain ⟨-, hf⟩ := h.held _ List.mem_cons_self
  obtain ⟨mem, hfree, hstep, -⟩ := freePhysicalPage_spec hinv hf
  exact ⟨_, hfree, .cons trivial hstep .nil⟩

/-- One entry: what it leads to is given back, if it is present. -/
theorem Ready.oneEntry (free : BlockState → Nat → Option BlockState)
    (hload : u.load (physToVirt table + 8 * i) = mem (table + 8 * i))
    (hfree : ∀ next, entryLink (mem (table + 8 * i)) = some next →
      Ready bytes u (mem.tableCalls depth next ++ rest) →
      ∃ t, free u next = some t ∧ u.Run (mem.tableCalls depth next) t)
    (h : Ready bytes u (mem.entryCalls depth table i ++ rest)) :
    ∃ t, (if u.load (physToVirt table + 8 * i) &&& pgP ≠ 0 then
        free u (u.load (physToVirt table + 8 * i) &&& entryMask) else some u) = some t ∧
      u.Run (mem.entryCalls depth table i) t := by
  rw [hload]
  unfold entryCalls at h ⊢
  cases hlink : entryLink (mem (table + 8 * i)) with
  | none =>
      rw [if_neg (not_not.mpr (entryLink_eq_none.mp hlink))]
      exact ⟨u, rfl, .nil⟩
  | some next =>
      rw [hlink] at h
      obtain ⟨hpresent, hnext⟩ := entryLink_eq_some hlink
      rw [if_pos hpresent, hnext]
      exact hfree next hlink h

/-- One table: its entries and then its block. -/
theorem Ready.wholeTable (body : BlockState → Nat → Option BlockState) (hn : n ≤ 512)
    (hbody : ∀ i < n, ∀ u rest, Ready bytes u (mem.entryCalls depth table i ++ rest) →
      ∃ t, body u i = some t ∧ u.Run (mem.entryCalls depth table i) t)
    (hrest : ∀ i, n ≤ i → i < 512 → mem.entryCalls depth table i = [])
    (h : Ready bytes u (mem.tableCalls (depth + 1) table ++ rest)) :
    ∃ t, ((List.range n).foldlM body u).bind (fun v => v.kfree (physToVirt table)) = some t ∧
      u.Run (mem.tableCalls (depth + 1) table) t := by
  have hsplit : (List.range 512).flatMap (mem.entryCalls depth table) =
      (List.range n).flatMap (mem.entryCalls depth table) := by
    have hrange : List.range 512 = List.range n ++ (List.range (512 - n)).map (n + ·) := by
      rw [← List.range_add, Nat.add_sub_cancel' hn]
    have hnil : ((List.range (512 - n)).map (n + ·)).flatMap (mem.entryCalls depth table) = [] := by
      rw [List.flatMap_eq_nil_iff]
      intro i hi
      obtain ⟨j, hj, rfl⟩ := List.mem_map.mp hi
      have hlt := List.mem_range.mp hj
      exact hrest _ (Nat.le_add_right n j) (by omega)
    rw [hrange, List.flatMap_append, hnil, List.append_nil]
  rw [tableCalls_succ, hsplit] at h ⊢
  rw [List.append_assoc] at h
  obtain ⟨v, hv, hrun⟩ := foldlM_run (fun i hi => hbody i (List.mem_range.mp hi)) u _ h
  obtain ⟨t, ht, hlast⟩ := (h.after hrun).one
  refine ⟨t, ?_, hrun.append hlast⟩
  rw [hv, Option.bind_some]
  exact ht

namespace Owns

/-- An entry of one of the tables, as the loops read it. -/
theorem load_walk (h : s.Owns pml4t) (hbytes : u.alloc.bytes = s.alloc.bytes)
    (htable : (s.view pml4t).IsTable pml4t table) (hi : i < 512)
    (huser : table = pml4t → i < 256) :
    u.load (physToVirt table + 8 * i) = s.view pml4t (table + 8 * i) := by
  have hblock := h.tables table htable
  have hentry := hblock.entry_virt ⟨i, hi⟩
  rw [load_congr hbytes, ← hentry]
  exact load_entry (i := ⟨i, hi⟩) hblock h.aligned huser

/-- `free_pdt`. -/
theorem freePdt (h : s.Owns pml4t) (hpath : path.length = 2)
    (hwalk : (s.view pml4t).walk pml4t path = some table)
    (hready : Ready s.alloc.bytes u ((s.view pml4t).tableCalls 1 table ++ rest)) :
    ∃ t, u.freePdt table = some t ∧ u.Run ((s.view pml4t).tableCalls 1 table) t := by
  have hne : path ≠ [] := by
    rintro rfl
    cases hpath
  unfold BlockState.freePdt
  refine hready.wholeTable (freePde _) le_rfl (fun i hi u rest hu => ?_)
    fun i hlo hhi => absurd hhi hlo.not_gt
  unfold freePde
  refine hu.oneEntry (fun u f => u.freePhysicalPage f 1)
    (h.load_walk hu.same ⟨path, hpath.le, hwalk⟩ hi ?_) fun next _ hu => hu.oneFrame
  exact h.userEntry hpath.le hwalk hne ⟨i, hi⟩

/-- `free_pdpt`. -/
theorem freePdpt (h : s.Owns pml4t) (hpath : path.length = 1)
    (hwalk : (s.view pml4t).walk pml4t path = some table)
    (hready : Ready s.alloc.bytes u ((s.view pml4t).tableCalls 2 table ++ rest)) :
    ∃ t, u.freePdpt table = some t ∧ u.Run ((s.view pml4t).tableCalls 2 table) t := by
  have hne : path ≠ [] := by
    rintro rfl
    cases hpath
  unfold BlockState.freePdpt
  refine hready.wholeTable (freePdpte _) le_rfl (fun i hi u rest hu => ?_)
    fun i hlo hhi => absurd hhi hlo.not_gt
  unfold freePdpte
  refine hu.oneEntry BlockState.freePdt (h.load_walk hu.same ⟨path, by omega, hwalk⟩ hi ?_)
    fun next hlink hu => ?_
  · exact h.userEntry (by omega) hwalk hne ⟨i, hi⟩
  · have hnext : (s.view pml4t).walk pml4t (path ++ [⟨i, hi⟩]) = some next := by
      rw [walk_concat, hwalk]
      exact hlink
    exact h.freePdt (by simp [hpath]) hnext hu

/-- `free_page_table` makes the calls for the whole tree, and reads no entry of the kernel's
half. -/
theorem freePageTable (h : s.Owns pml4t)
    (hready : Ready s.alloc.bytes u ((s.view pml4t).tableCalls 3 pml4t ++ rest)) :
    ∃ t, u.freePageTable pml4t = some t ∧ u.Run ((s.view pml4t).tableCalls 3 pml4t) t := by
  have hroot : (s.view pml4t).walk pml4t [] = some pml4t := rfl
  unfold BlockState.freePageTable
  refine hready.wholeTable (freePml4e _) (by decide) (fun i hi u rest hu => ?_)
    fun i hlo hhi => ?_
  · unfold freePml4e
    refine hu.oneEntry BlockState.freePdpt
      (h.load_walk hu.same (inTree_root 2) (by omega) fun _ => hi) fun next hlink hu => ?_
    have hlink : entryLink ((s.view pml4t).tableWord pml4t ⟨i, by omega⟩) = some next := hlink
    exact h.freePdpt rfl (walk_of_entryLink hlink []) hu
  · have hzero : s.view pml4t (pml4t + 8 * i) = 0 :=
      if_pos ⟨by unfold ptSize; omega, by unfold ptSize; omega⟩
    unfold entryCalls
    rw [hzero, entryLink_zero]

/-! ## The whole tree -/

theorem physToVirt_injective {T T' : Nat} (h : s.TableBlock T) (h' : s.TableBlock T')
    (heq : physToVirt T = physToVirt T') : T = T' := by
  rw [Allocator.physToVirt_of_lt h.lt, Allocator.physToVirt_of_lt h'.lt] at heq
  exact Nat.add_right_cancel heq

/-- No call is made for two paths. -/
theorem callAt_injective (h : s.Owns pml4t) {path' : List (Fin 512)} {c : BlockCall}
    (hc : (s.view pml4t).CallAt 3 pml4t path c) (hc' : (s.view pml4t).CallAt 3 pml4t path' c) :
    path = path' := by
  obtain ⟨hlen, next, hwalk, rfl⟩ := hc
  obtain ⟨hlen', next', hwalk', heq⟩ := hc'
  unfold release at heq
  split at heq
  · next hlast =>
      split at heq
      · next hlast' =>
          obtain rfl : next = next' := by simpa using heq
          exact h.apart path path' next hlast hlast' hwalk hwalk'
      · cases heq
  · next hinner =>
      split at heq
      · cases heq
      · next hinner' =>
          have hsame : physToVirt next = physToVirt next' := by simpa using heq
          have hT := h.tables next ⟨path, by omega, hwalk⟩
          have hT' := h.tables next' ⟨path', by omega, hwalk'⟩
          obtain rfl := physToVirt_injective hT hT' hsame
          exact h.tree.unshared path path' next (by omega) (by omega) hwalk hwalk'

/-- What the calls give back is what the process owns. -/
theorem given_eq (h : s.Owns pml4t) {contents : Group → List Nat} {group : Nat → Group}
    (hinv : BlockInv s contents group) :
    Given ((s.view pml4t).tableCalls 3 pml4t) ∩ s.held = s.owned pml4t := by
  ext r
  constructor
  · rintro ⟨hgiven, hheld⟩
    cases r with
    | block b g =>
        obtain ⟨path, hlen, next, hwalk, heq⟩ := mem_tableCalls.mp hgiven
        unfold release at heq
        split at heq
        · cases heq
        · have hT : (s.view pml4t).IsTable pml4t next := ⟨path, by omega, hwalk⟩
          have hb : b = physToVirt next := by simpa using heq
          have hlive : (b, tableGroup) ∈ s.live := by
            rw [hb]
            exact (h.tables next hT).live
          exact ⟨live_unique hinv hheld hlive, next, hT, hb⟩
    | frames f n =>
        obtain ⟨path, hlen, next, hwalk, heq⟩ := mem_tableCalls.mp hgiven
        unfold release at heq
        split at heq
        · next hlast =>
            obtain ⟨rfl, rfl⟩ : f = next ∧ n = 1 := by simpa using heq
            exact ⟨rfl, path, hlast, hwalk⟩
        · cases heq
  · intro hr
    refine ⟨?_, h.owned_subset hr⟩
    cases r with
    | block b g =>
        obtain ⟨-, T, ⟨path, hlen, hwalk⟩, hb⟩ := mem_owned_block.mp hr
        refine mem_tableCalls.mpr ⟨path, by omega, T, hwalk, ?_⟩
        rw [release, if_neg (by omega), hb]
    | frames f n =>
        obtain ⟨rfl, path, hpath, hwalk⟩ := mem_owned_frames.mp hr
        refine mem_tableCalls.mpr ⟨path, hpath.le, f, hwalk, ?_⟩
        rw [release, if_pos hpath]

/-- All of the calls can be made. -/
theorem ready (h : s.Owns pml4t) {contents : Group → List Nat} {group : Nat → Group}
    (hinv : BlockInv s contents group) :
    Ready s.alloc.bytes s ((s.view pml4t).tableCalls 3 pml4t) := by
  refine ⟨⟨contents, group, hinv⟩, rfl,
    nodup_tableCalls fun path path' c hc hc' => h.callAt_injective hc hc', fun c hc => ?_⟩
  obtain ⟨path, hlen, next, hwalk, rfl⟩ := mem_tableCalls.mp hc
  unfold release
  split
  · next hlast => exact ⟨rfl, h.pages path next hlast hwalk⟩
  · exact ⟨tableGroup, (h.tables next ⟨path, by omega, hwalk⟩).live⟩

/-- `free_page_table` gives back what the process owns, each table and each frame once. -/
theorem exit (h : s.Owns pml4t) {contents : Group → List Nat} {group : Nat → Group}
    (hinv : BlockInv s contents group) :
    ∃ t contents' group', s.freePageTable pml4t = some t ∧ BlockInv t contents' group' ∧
      s.Acts t (s.owned pml4t) ∅ ∧ s.Run ((s.view pml4t).tableCalls 3 pml4t) t := by
  have hready := h.ready hinv
  have hlast : Ready s.alloc.bytes s ((s.view pml4t).tableCalls 3 pml4t ++ []) := by
    rwa [List.append_nil]
  obtain ⟨t, ht, hrun⟩ := h.freePageTable hlast
  obtain ⟨contents', group', hinv'⟩ := (hlast.after hrun).inv
  refine ⟨t, contents', group', ht, hinv', ?_, hrun⟩
  rw [← h.given_eq hinv]
  exact hready.acts hrun

end Owns

end Levels

end BlockState

end ClayFigure
