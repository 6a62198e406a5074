/-
# The stack of a process

`start_process` takes a frame for the stack of a process and keeps its address. `proc_exit` gives
that frame back, and then `free_page_table` gives it back once more with the page it is behind. As
long as no frame is taken in between the bitmap comes out right, but every exit puts the counter of
free frames one ahead of it. Since the counter is read to refuse requests early only, processes get
the same as with a counter that is right: each run here is one in which the stack is given back
once.

What is proved rests on two things that the code does not see to. A call is one step, so that no
other task runs between the two releases, or between the release and `page_unmap` in
`kern_free_page`, though system calls run with interrupts on. And no process frees the page of its
stack, which `kern_free_page` would accept: the frame could be another's by the time of the exit.
-/

import ClayFigure.Mem.OverCount
import ClayFigure.Service.KernFree
import ClayFigure.Task.ProcRuns

namespace ClayFigure

open ClayFigure.Math

/-! ## The code -/

/-- What `proc_exit` gives back of the pages of a process; `none` is a failed `ASSERT`. -/
def BlockState.procExit (s : BlockState) (pgDir ustackBase : Nat) : Option BlockState := do
  let s ← s.freePhysicalPage ustackBase 1
  s.freePageTable pgDir

/-- Processes with their `ustack_base`, and the number of those that have exited, which is not
read. -/
structure UserState where
  procs : ProcsState
  ustackBase : Nat → Nat
  exits : Nat

/-- A process is created, starts, touches or frees a page, or exits; or the rest of the kernel
makes a call. -/
inductive UserCall
  | create
  | start (dir : Nat)
  | map (dir vaddr : Nat)
  | unmap (dir inAddr : Nat)
  | exit (dir : Nat)
  | kernel (c : BlockCall)

namespace UserState

/-- `proc_exit` without another task between its releases; the tables of ranges are blocks of the
kernel. -/
def procExit (s : UserState) (dir : Nat) : Option UserState := do
  let blocks ← s.procs.blocks.procExit dir (s.ustackBase dir)
  return { s with
    procs := { s.procs with blocks, dirs := s.procs.dirs.erase dir }
    exits := s.exits + 1 }

/-- `start_process`, as far as the switch to user mode. -/
def startProcess (s : UserState) (dir : Nat) : Option UserState := do
  let (ustack, blocks) ← s.procs.blocks.mapFrame dir userStackVaddrBase
  let s := { s with procs := { s.procs with blocks } }
  match ustack with
  | some ustack => return { s with ustackBase := Function.update s.ustackBase dir ustack }
  | none => s.procExit dir

end UserState

/-- One call; `none` is a failed `ASSERT`. -/
def userStep (s : UserState) : UserCall → Option UserState
  | .create => do
      let procs ← procsStep s.procs .create
      -- `init_task_struct` clears `ustack_base`
      return { s with
        procs
        ustackBase := fun dir => if dir ∈ s.procs.dirs then s.ustackBase dir else 0 }
  | .start dir => s.startProcess dir
  | .map dir vaddr => do
      let procs ← procsStep s.procs (.map dir vaddr)
      return { s with procs }
  | .unmap dir inAddr => do
      let procs ← procsStep s.procs (.unmap dir inAddr)
      return { s with procs }
  | .exit dir => s.procExit dir
  | .kernel c => do
      let procs ← procsStep s.procs (.kernel c)
      return { s with procs }

/-- The page of the stack is not among the pages that are touched or freed. `kern_free_page` does
not refuse it: this is asked of the processes. -/
def NotStack (vaddr : Nat) : Prop := vaddr / pgSize ≠ userStackVaddrBase / pgSize

/-- A process starts once and exits after that, and leaves the page of its stack alone; there are
less than 2 ^ 63 exits. Nothing of this is checked by the code. -/
def UserAllowed (s : UserState) : UserCall → Prop
  | .create => True
  | .start dir => dir ∈ s.procs.dirs ∧ s.ustackBase dir = 0
  | .map dir vaddr => ProcsAllowed s.procs (.map dir vaddr) ∧ NotStack vaddr
  | .unmap dir inAddr => ProcsAllowed s.procs (.unmap dir inAddr) ∧ NotStack inAddr
  | .exit dir => dir ∈ s.procs.dirs ∧ s.ustackBase dir ≠ 0 ∧ s.exits + 1 < 2 ^ 63
  | .kernel c => ProcsAllowed s.procs (.kernel c)

/-- Histories of all processes, from the first one on. -/
def userSystem : System UserState UserCall where
  init s := ProcsInit s.procs ∧ s.exits = 0
  step s c t := userStep s c = some t

/-- The call with the stack given back once. -/
def UserCall.once : UserCall → ProcsCall
  | .create => .create
  | .start dir => .map dir userStackVaddrBase
  | .map dir vaddr => .map dir vaddr
  | .unmap dir inAddr => .unmap dir inAddr
  | .exit dir => .exit dir
  | .kernel c => .kernel c

/-! ## The counter ahead -/

namespace BlockState

variable {s t : BlockState} {k : Nat}

theorem pageUnmap_ahead (s : BlockState) (k pml4t vaddr : Nat) :
    (s.ahead k).pageUnmap pml4t vaddr = (s.pageUnmap pml4t vaddr).map (ahead · k) := by
  have hframes : s.ahead k = s.withFrames (s.alloc.mem.ahead k) s.others := rfl
  rw [hframes, pageUnmap_withFrames]
  cases heq : s.pageUnmap pml4t vaddr with
  | none => rfl
  | some t =>
      obtain ⟨a, word, rfl⟩ : ∃ a word, t = s.store a word := by
        unfold BlockState.pageUnmap at heq
        simp only at heq
        split_ifs at heq
        exact ⟨_, _, (Option.some.inj heq).symm⟩
      rfl

theorem unmapFrame_ahead (s : BlockState) (k pageDir inAddr : Nat) :
    (s.ahead k).unmapFrame pageDir inAddr = (s.unmapFrame pageDir inAddr).map (ahead · k) := by
  unfold BlockState.unmapFrame
  have hmemory : (s.ahead k).alloc.memory = s.alloc.memory := rfl
  have hfree := ((unnoticed_ahead k).freePhysicalPage
    (s.alloc.memory.toPhysicalAddress pageDir inAddr) s trivial).1
  simp only at hfree
  simp only [hmemory, hfree]
  cases s.freePhysicalPage (s.alloc.memory.toPhysicalAddress pageDir inAddr) 1 with
  | none => rfl
  | some u => exact pageUnmap_ahead u k pageDir inAddr

theorem allocPhysicalPage_ahead (hm : s.alloc.mem.Counted) (hk : k < 2 ^ 63) :
    ∃ status addr t, s.allocPhysicalPage 1 = some (status, addr, t) ∧
      ((status = .kSuccess ∧
          (s.ahead k).allocPhysicalPage 1 = some (status, addr, t.ahead k)) ∨
        (status = .kNomem ∧
          ∃ addr', (s.ahead k).allocPhysicalPage 1 = some (status, addr', t.ahead k))) := by
  obtain ⟨status, addr, m, heq, hout⟩ := Mem.allocPhysicalPage_ahead hm hk Nat.one_pos
  have hahead : (s.ahead k).alloc.mem = s.alloc.mem.ahead k := rfl
  unfold BlockState.allocPhysicalPage
  rw [hahead, heq]
  refine ⟨status, addr, _, rfl, ?_⟩
  rcases hout with ⟨rfl, heq'⟩ | ⟨rfl, addr', heq'⟩
  · rw [heq']
    cases addr <;> exact Or.inl ⟨rfl, rfl⟩
  · rw [heq']
    exact Or.inr ⟨rfl, addr', by cases addr <;> cases addr' <;> rfl⟩

theorem mapFrame_ahead (h : s.Sound) (hk : k < 2 ^ 63) (pageDir vaddr : Nat) :
    (s.ahead k).mapFrame pageDir vaddr =
      (s.mapFrame pageDir vaddr).map fun r => (r.1, r.2.ahead k) := by
  obtain ⟨status, addr, u, heq, hout⟩ := allocPhysicalPage_ahead h.counted hk
  obtain ⟨contents, group, hinv⟩ := h
  obtain ⟨hinv', -⟩ := allocPhysicalPage_spec hinv heq
  unfold BlockState.mapFrame
  rw [heq]
  rcases hout with ⟨rfl, heq'⟩ | ⟨rfl, addr', heq'⟩
  · rw [heq']
    cases addr with
    | none => rfl
    | some addr =>
        have hmap := (pageMap_ahead hk pageDir addr vaddr u ⟨contents, group, hinv'⟩).1
        simp only [Option.bind_eq_bind, Option.bind_some] at hmap ⊢
        rw [hmap]
        cases u.pageMap pageDir addr vaddr <;> rfl
  · rw [heq']
    cases addr <;> cases addr' <;> rfl

theorem blockAllowed_of_ahead (hm : s.alloc.mem.Counted) (hk : k < 2 ^ 63) {c : BlockCall}
    (hallowed : BlockAllowed (s.ahead k) c) : BlockAllowed s c := by
  cases c with
  | kmalloc size alignment boundary addr =>
      refine ⟨hallowed.1, fun b a heq => hallowed.2 b (a.onMem (Mem.ahead · k)) ?_⟩
      change (s.alloc.onMem (Mem.ahead · k)).kmalloc size alignment boundary addr = _
      rw [Allocator.kmalloc_ahead hm hk, heq]
      rfl
  | kfree | store | frames => exact hallowed

/-! ## The exit -/

theorem procExit_ahead (s : BlockState) (k pgDir ustackBase : Nat) :
    (s.ahead k).procExit pgDir ustackBase =
      (s.procExit pgDir ustackBase).map (ahead · k) :=
  have h := unnoticed_ahead k
  ((h.freePhysicalPage ustackBase).bind (h.freePageTable pgDir) s trivial).1

/-- After the releases a frame among them is free. -/
theorem Ready.free {bytes : Nat → Byte} {calls : List BlockCall} {f : Nat}
    (h : Ready bytes s calls) (hrun : s.Run calls t)
    (hf : .frames (.free f 1) ∈ calls ∨ f / pgSize ∈ s.alloc.mem.freeFrames) :
    f / pgSize ∈ t.alloc.mem.freeFrames := by
  induction hrun with
  | nil => exact hf.resolve_left List.not_mem_nil
  | @cons s u t c calls hallowed hstep hrest ih =>
      obtain ⟨contents, group, hinv⟩ := h.inv
      obtain ⟨u', hu', -, hready⟩ := h.step
      obtain rfl := Option.some.inj (hu'.symm.trans hstep)
      have hheld := h.held c List.mem_cons_self
      -- a release takes no frame
      have hstay : s.alloc.mem.freeFrames ⊆ u'.alloc.mem.freeFrames := by
        cases c with
        | kmalloc | store => exact hheld.elim
        | kfree b =>
            obtain ⟨a, hfree, ht⟩ := Option.bind_eq_some_iff.mp hstep
            obtain rfl := Option.some.inj ht
            exact (Allocator.kfree_keeps hfree).2
        | frames d =>
            cases d with
            | alloc n => exact hheld.elim
            | free f' n =>
                obtain ⟨rfl, hf'⟩ := hheld
                obtain ⟨mem, -, hstep', -, hfree⟩ := freePhysicalPage_spec hinv hf'
                obtain rfl := Option.some.inj (hstep'.symm.trans hstep)
                exact (Finset.subset_insert _ _).trans hfree.ge
      refine ih hready ?_
      rcases hf with hf | hf
      · rcases List.mem_cons.mp hf with rfl | hf
        · obtain ⟨mem, -, hstep', -, hfree⟩ := freePhysicalPage_spec hinv hheld.2
          obtain rfl := Option.some.inj (hstep'.symm.trans hstep)
          exact Or.inr (hfree.ge (Finset.mem_insert_self _ _))
        · exact Or.inl hf
      · exact Or.inr (hstay hf)

/-- `proc_exit` does what `free_page_table` does, and counts one frame too many. -/
theorem Owns.procExit {pml4t f : Nat} {contents : Group → List Nat} {group : Nat → Group}
    (h : s.Owns pml4t) (hinv : BlockInv s contents group) {path : List (Fin 512)}
    (hpath : path.length = 3) (hwalk : (s.view pml4t).walk pml4t path = some f)
    (hfree : s.freePageTable pml4t = some t)
    (hrun : s.Run ((s.view pml4t).tableCalls 3 pml4t) t) :
    s.procExit pml4t f = some (t.ahead 1) := by
  obtain ⟨halign, hpos, hlt⟩ := h.frame_bounds hinv hpath hwalk
  have hheld := h.pages path f hpath hwalk
  have hready := h.ready hinv
  have hmark : s.freePhysicalPage f 1 = some (s.mark f) := by
    unfold BlockState.freePhysicalPage
    rw [Mem.freePhysicalPage_eq_mark hpos halign]
    rfl
  have hpage := not_mem_pages hinv hheld halign
  have hcall : .frames (.free f 1) ∈ (s.view pml4t).tableCalls 3 pml4t :=
    Memory.mem_tableCalls.mpr ⟨path, hpath.le, f, hwalk, by rw [Memory.release, if_pos hpath]⟩
  have hfrees : f / pgSize ∈ t.alloc.mem.freeFrames := hready.free hrun (Or.inl hcall)
  have hgone : (f, 1) ∉ t.others := by
    have hacts := hready.acts hrun
    rw [h.given_eq hinv] at hacts
    intro hin
    have hin' : Resource.frames f 1 ∈ t.held := hin
    rw [hacts.after, Set.union_empty] at hin'
    exact hin'.2 (mem_owned_frames.mpr ⟨rfl, path, hpath, hwalk⟩)
  have hlast : t.mark f = t.ahead 1 := by
    unfold mark ahead Allocator.onMem
    rw [List.erase_of_not_mem hgone]
    simp only [Mem.mark_of_mem hfrees]
  have hlt' : f < wordSize := by
    unfold pgSize wordSize at *
    omega
  have hblind := ((unnoticed_mark hlt').freePageTable pml4t s hpage).1
  simp only at hblind
  unfold BlockState.procExit
  rw [hmark, Option.bind_eq_bind, Option.bind_some, hblind, hfree, Option.map_some, hlast]

/-- The calls can be made as well with the counter ahead. -/
theorem Ready.ahead {bytes : Nat → Byte} {calls : List BlockCall} (h : Ready bytes s calls)
    (hrun : s.Run calls t) (hk : k < 2 ^ 63) : (s.ahead k).Run calls (t.ahead k) := by
  induction hrun with
  | nil => exact .nil
  | @cons s u t c calls hallowed hstep hrest ih =>
      obtain ⟨u', hu', -, hready⟩ := h.step
      obtain rfl := Option.some.inj (hu'.symm.trans hstep)
      have hm : s.alloc.mem.Counted := Sound.counted h.inv
      have hheld := h.held c List.mem_cons_self
      refine .cons ?_ ?_ (ih hready)
      · cases c with
        | kmalloc => exact hheld.elim
        | kfree | store | frames => exact hallowed
      · rw [blockStep_ahead hm hk, hstep]
        rfl

end BlockState

/-! ## The two systems -/

namespace ProcsState

variable {a b : ProcsState} {k : Nat}

/-- The counter of free frames is ahead by `k`. -/
def ahead (a : ProcsState) (k : Nat) : ProcsState := { a with blocks := a.blocks.ahead k }

/-- A call has the same result whether the counter is ahead or not. -/
theorem procsStep_ahead (h : a.blocks.Sound) (hk : k < 2 ^ 63) (c : ProcsCall) :
    procsStep (a.ahead k) c = (procsStep a c).map (ahead · k) := by
  have hblocks : (a.ahead k).blocks = a.blocks.ahead k := rfl
  cases c with
  | create =>
      simp only [procsStep, hblocks, BlockState.createPageDir_ahead h.counted hk]
      cases a.blocks.createPageDir with
      | none => rfl
      | some r =>
          obtain ⟨p, u⟩ := r
          cases p <;> rfl
  | map p v =>
      simp only [procsStep, hblocks, BlockState.mapFrame_ahead h hk]
      cases a.blocks.mapFrame p v <;> rfl
  | unmap p v =>
      simp only [procsStep, hblocks, BlockState.unmapFrame_ahead]
      cases a.blocks.unmapFrame p v <;> rfl
  | exit p =>
      have hfree := ((BlockState.unnoticed_ahead k).freePageTable p a.blocks trivial).1
      simp only at hfree
      simp only [procsStep, hblocks, hfree]
      cases a.blocks.freePageTable p <;> rfl
  | kernel c =>
      simp only [procsStep, hblocks, BlockState.blockStep_ahead h.counted hk]
      cases blockStep a.blocks c <;> rfl

theorem allowed_of_ahead (h : a.blocks.Sound) (hk : k < 2 ^ 63) {c : ProcsCall}
    (hallowed : ProcsAllowed (a.ahead k) c) : ProcsAllowed a c := by
  cases c with
  | create | map | unmap | exit => exact hallowed
  | kernel c =>
      obtain ⟨hblock, hcall⟩ := hallowed
      refine ⟨BlockState.blockAllowed_of_ahead h.counted hk hblock, ?_⟩
      cases c with
      | kmalloc | kfree | store => exact hcall
      | frames d => cases d <;> exact hcall

end ProcsState

/-- The counter is ahead by the number of exits, and is right otherwise; the frame of a stack is
that behind its page. -/
structure UserInv (s : UserState) : Prop where
  once : ∃ a, procsSystem.ReachableWhen ProcsAllowed a ∧ s.procs = a.ahead s.exits
  exits : s.exits < 2 ^ 63
  stack : ∀ dir ∈ s.procs.dirs, s.procs.translate dir userStackVaddrBase = s.ustackBase dir

namespace UserInv

variable {s t : UserState} {a b : ProcsState} {p : Nat} {c : UserCall}

theorem userHalf_stack : UserHalf userStackVaddrBase := by decide

/-- An exit in a process that has a stack. -/
theorem procExit (h : UserInv s) (ha : ProcsInv a) (heq : s.procs = a.ahead s.exits)
    (hp : p ∈ s.procs.dirs) (hstack : s.ustackBase p ≠ 0) :
    ∃ u, a.blocks.freePageTable p = some u ∧
      s.procs.blocks.freePageTable p = some (u.ahead s.exits) ∧
      s.procs.blocks.procExit p (s.ustackBase p) = some (u.ahead (s.exits + 1)) ∧
      a.blocks.Run ((a.blocks.view p).tableCalls 3 p) u ∧
      a.blocks.Acts u (a.blocks.owned p) ∅ := by
  have hdirs : p ∈ a.dirs := by
    rw [heq] at hp
    exact hp
  have hbase : a.translate p userStackVaddrBase = s.ustackBase p := by
    rw [← h.stack p hp, heq]
    rfl
  obtain ⟨contents, group, hinv⟩ := ha.inv
  obtain ⟨f, hwalk, -, htranslate, -⟩ :=
    ha.walk_of_translate hdirs userHalf_stack (hbase ▸ hstack)
  obtain rfl : f = s.ustackBase p := htranslate.symm.trans hbase
  obtain ⟨u, hfree, -, hacts, hrun⟩ := ha.exit hdirs
  refine ⟨u, hfree, ?_, ?_, hrun, hacts⟩
  · have hblind := ((BlockState.unnoticed_ahead s.exits).freePageTable p a.blocks trivial).1
    simp only [hfree, Option.map_some] at hblind
    rw [heq]
    exact hblind
  · have hexit := (ha.owns p hdirs).procExit hinv rfl hwalk hfree hrun
    rw [heq]
    change (a.blocks.ahead s.exits).procExit p _ = _
    rw [BlockState.procExit_ahead, hexit, Option.map_some, BlockState.ahead_ahead,
      Nat.add_comm]

/-- A call is that of the state in which the counter is right. -/
theorem sameCall (h : UserInv s) (ha : ProcsInv a) (heq : s.procs = a.ahead s.exits)
    {d : ProcsCall} (hallowed : ProcsAllowed s.procs d) {procs : ProcsState}
    (hstep : procsStep s.procs d = some procs) :
    ProcsAllowed a d ∧ ∃ b, procsStep a d = some b ∧ procs = b.ahead s.exits := by
  rw [heq] at hallowed hstep
  rw [ProcsState.procsStep_ahead ha.inv h.exits] at hstep
  obtain ⟨b, hb, rfl⟩ := Option.map_eq_some_iff.mp hstep
  exact ⟨ProcsState.allowed_of_ahead ha.inv h.exits hallowed, b, hb, rfl⟩

/-- A process that starts gets the page of its stack mapped; an exit for want of a frame fails the
`ASSERT` of `free_physical_page`. -/
theorem start (h : UserInv s) (ha : ProcsInv a) (heq : s.procs = a.ahead s.exits)
    (hallowed : UserAllowed s (.start p)) (hstep : userStep s (.start p) = some t) :
    ProcsAllowed a (.map p userStackVaddrBase) ∧ ∃ f u,
      a.blocks.mapFrame p userStackVaddrBase = some (some f, u) ∧
        t.procs = ProcsState.ahead { a with blocks := u } s.exits ∧
        t.ustackBase = Function.update s.ustackBase p f ∧ t.exits = s.exits := by
  obtain ⟨hp, hnone⟩ := hallowed
  have hzero := (h.stack p hp).trans hnone
  obtain ⟨⟨r, u⟩, hmap, ht⟩ := Option.bind_eq_some_iff.mp hstep
  rw [heq] at hp hzero hmap
  change (a.blocks.ahead s.exits).mapFrame p userStackVaddrBase = _ at hmap
  rw [BlockState.mapFrame_ahead ha.inv h.exits] at hmap
  obtain ⟨⟨r', v⟩, hmap', hsame⟩ := Option.map_eq_some_iff.mp hmap
  rw [Prod.mk.injEq] at hsame
  obtain ⟨rfl, rfl⟩ := hsame
  refine ⟨⟨hp, userHalf_stack, hzero⟩, ?_⟩
  cases r' with
  | some f =>
      obtain rfl := Option.some.inj ht
      refine ⟨f, v, hmap', ?_, rfl, rfl⟩
      simp only [heq]
      rfl
  | none =>
      obtain ⟨blocks, hexit, -⟩ := Option.bind_eq_some_iff.mp ht
      obtain ⟨v, hfree, -⟩ := Option.bind_eq_some_iff.mp hexit
      simp only [hnone] at hfree
      cases hfree

/-- A step is one with the stack given back once. -/
theorem simulated (h : UserInv s) (ha : ProcsInv a) (heq : s.procs = a.ahead s.exits)
    (hallowed : UserAllowed s c) (hstep : userStep s c = some t) :
    ∃ b, ProcsAllowed a c.once ∧ procsStep a c.once = some b ∧ t.procs = b.ahead t.exits ∧
      t.exits < 2 ^ 63 := by
  -- the calls that are those of the smaller system
  have hsame {d : ProcsCall} (hd : ProcsAllowed s.procs d) {procs : ProcsState}
      (hprocs : procsStep s.procs d = some procs) (hexits : t.exits = s.exits)
      (ht : t.procs = procs) : ∃ b, ProcsAllowed a d ∧ procsStep a d = some b ∧
        t.procs = b.ahead t.exits ∧ t.exits < 2 ^ 63 := by
    obtain ⟨hd', b, hb, hahead⟩ := h.sameCall ha heq hd hprocs
    exact ⟨b, hd', hb, by rw [ht, hexits, hahead], hexits ▸ h.exits⟩
  cases c with
  | create =>
      obtain ⟨procs, hprocs, ht⟩ := Option.bind_eq_some_iff.mp hstep
      obtain rfl := Option.some.inj ht
      exact hsame hallowed hprocs rfl rfl
  | start p =>
      obtain ⟨hmapped, f, u, hmap, hprocs, -, hexits⟩ := h.start ha heq hallowed hstep
      have hstep' : procsStep a (.map p userStackVaddrBase) = some { a with blocks := u } := by
        simp [procsStep, hmap]
      exact ⟨_, hmapped, hstep', by rw [hprocs, hexits], hexits ▸ h.exits⟩
  | map | unmap =>
      obtain ⟨procs, hprocs, ht⟩ := Option.bind_eq_some_iff.mp hstep
      obtain rfl := Option.some.inj ht
      exact hsame hallowed.1 hprocs rfl rfl
  | kernel c =>
      obtain ⟨procs, hprocs, ht⟩ := Option.bind_eq_some_iff.mp hstep
      obtain rfl := Option.some.inj ht
      exact hsame hallowed hprocs rfl rfl
  | exit p =>
      obtain ⟨hp, hstack, hexits⟩ := hallowed
      obtain ⟨u, hfree, -, hexit, -⟩ := h.procExit ha heq hp hstack
      have hprocs : procsStep a (.exit p) =
          some { a with blocks := u, dirs := a.dirs.erase p } := by
        simp [procsStep, hfree]
      refine ⟨_, ?_, hprocs, ?_⟩
      · rw [heq] at hp
        exact hp
      · obtain ⟨blocks, hblocks, ht⟩ := Option.bind_eq_some_iff.mp hstep
        obtain rfl := Option.some.inj ht
        obtain rfl := Option.some.inj (hblocks.symm.trans hexit)
        rw [heq]
        exact ⟨rfl, hexits⟩

/-- One call keeps the invariant, and the addresses it is not about. -/
theorem step (h : UserInv s) (hallowed : UserAllowed s c) (hstep : userStep s c = some t) :
    UserInv t ∧ ∀ q ∈ s.procs.dirs, ∀ w, UserHalf w → ¬ c.once.Touches q w →
      t.procs.translate q w = s.procs.translate q w := by
  obtain ⟨a, hreach, heq⟩ := h.once
  have ha := ProcsInv.of_reachable hreach
  obtain ⟨b, hallowed', hb, ht, hexits⟩ := h.simulated ha heq hallowed hstep
  obtain ⟨hnew, hframe⟩ := ha.step hallowed' hb
  have hkeep (q : Nat) (hq : q ∈ s.procs.dirs) (w : Nat) (hw : UserHalf w)
      (htouch : ¬ c.once.Touches q w) :
      t.procs.translate q w = s.procs.translate q w := by
    rw [heq] at hq ⊢
    rw [ht]
    exact hframe q hq w hw htouch
  refine ⟨⟨⟨b, hreach.step hallowed' hb, ht⟩, hexits, fun q hq => ?_⟩, hkeep⟩
  -- a stack that is not touched
  have hstack (hq : q ∈ s.procs.dirs) (htouch : ¬ c.once.Touches q userStackVaddrBase) :
      t.procs.translate q userStackVaddrBase = s.ustackBase q :=
    (hkeep q hq _ userHalf_stack htouch).trans (h.stack q hq)
  cases c with
  | create =>
      obtain ⟨p, hdirs, hp, hempty⟩ := ha.created hb
      obtain ⟨procs, hprocs, hlast⟩ := Option.bind_eq_some_iff.mp hstep
      have hbase : t.ustackBase q = if q ∈ s.procs.dirs then s.ustackBase q else 0 := by
        rw [← Option.some.inj hlast]
      rw [hbase]
      split
      · next hq => exact hstack hq not_false
      · next hno =>
          rw [ht] at hq ⊢
          rw [heq] at hno
          obtain rfl : q = p := by
            have hin : q ∈ b.dirs := hq
            rw [hdirs] at hin
            exact (List.mem_cons.mp hin).resolve_right hno
          exact hempty _ userHalf_stack
  | start p =>
      obtain ⟨⟨hp, hv, hzero⟩, f, u, hmap, hprocs, hbase, -⟩ := h.start ha heq hallowed hstep
      by_cases hqp : q = p
      · obtain ⟨-, -, -, htranslate⟩ := ha.mapped hp hv hzero hmap
        rw [hqp, hbase, Function.update_self, hprocs]
        exact htranslate _ hv rfl
      · rw [hbase, Function.update_of_ne hqp]
        have hin : q ∈ s.procs.dirs := by
          rw [hprocs] at hq
          rw [heq]
          exact hq
        exact hstack hin fun htouch => hqp htouch.1
  | map p v =>
      obtain ⟨procs, hprocs, hlast⟩ := Option.bind_eq_some_iff.mp hstep
      obtain ⟨r, -, hprocs⟩ := Option.bind_eq_some_iff.mp hprocs
      obtain rfl := Option.some.inj hlast
      obtain rfl := Option.some.inj hprocs
      exact hstack hq fun htouch => hallowed.2 htouch.2.symm
  | unmap p v =>
      obtain ⟨procs, hprocs, hlast⟩ := Option.bind_eq_some_iff.mp hstep
      obtain ⟨r, -, hprocs⟩ := Option.bind_eq_some_iff.mp hprocs
      obtain rfl := Option.some.inj hlast
      obtain rfl := Option.some.inj hprocs
      exact hstack hq fun htouch => hallowed.2 htouch.2.symm
  | exit p =>
      obtain ⟨blocks, -, hlast⟩ := Option.bind_eq_some_iff.mp hstep
      obtain rfl := Option.some.inj hlast
      have hnodup : s.procs.dirs.Nodup := by
        rw [heq]
        exact ha.nodup
      obtain ⟨hne, hq⟩ := hnodup.mem_erase_iff.mp hq
      exact hstack hq hne
  | kernel c =>
      obtain ⟨procs, hprocs, hlast⟩ := Option.bind_eq_some_iff.mp hstep
      obtain ⟨r, -, hprocs⟩ := Option.bind_eq_some_iff.mp hprocs
      obtain rfl := Option.some.inj hlast
      obtain rfl := Option.some.inj hprocs
      exact hstack hq not_false

theorem init (hinit : userSystem.init s) : UserInv s := by
  obtain ⟨hprocs, hexits⟩ := hinit
  refine ⟨⟨s.procs, .init hprocs, ?_⟩, by rw [hexits]; decide, fun q hq => ?_⟩
  · have hm := BlockState.Sound.counted ⟨_, _, .init hprocs.blocks⟩
    rw [hexits]
    unfold ProcsState.ahead
    rw [BlockState.ahead_zero hm]
  · rw [hprocs.dirs] at hq
    exact absurd hq List.not_mem_nil

theorem of_reachable (hreach : userSystem.ReachableWhen UserAllowed s) : UserInv s :=
  hreach.invariant (fun _ => init) fun _ _ _ h hallowed hstep => (h.step hallowed hstep).1

/-! ## What a process can count on -/

/-- A call that succeeds with the counter right does so with it ahead. -/
theorem liftCall (h : UserInv s) (ha : ProcsInv a) (heq : s.procs = a.ahead s.exits)
    {d : ProcsCall} (hb : procsStep a d = some b) :
    procsStep s.procs d = some (b.ahead s.exits) := by
  rw [heq, ProcsState.procsStep_ahead ha.inv h.exits, hb, Option.map_some]

theorem createStep (h : UserInv s) (hfree : 0 < s.procs.blocks.alloc.mem.freeFrames.card) :
    ∃ p t, userStep s .create = some t ∧ t.procs.dirs = p :: s.procs.dirs ∧ p ∉ s.procs.dirs ∧
      t.ustackBase p = 0 ∧ t.exits = s.exits ∧
      s.procs.blocks.alloc.mem.TakesOne t.procs.blocks.alloc.mem ∧
      ∀ w, UserHalf w → t.procs.translate p w = 0 := by
  obtain ⟨a, hreach, heq⟩ := h.once
  have ha := ProcsInv.of_reachable hreach
  have hfree' : 0 < a.blocks.alloc.mem.freeFrames.card := by
    rw [heq] at hfree
    exact hfree
  obtain ⟨p, b, hb, hdirs, hp, htakes, hempty⟩ := ha.createStep hfree'
  have hp' : p ∉ s.procs.dirs := by
    rw [heq]
    exact hp
  let t : UserState := { s with
    procs := b.ahead s.exits
    ustackBase := fun dir => if dir ∈ s.procs.dirs then s.ustackBase dir else 0 }
  have hstep : userStep s .create = some t := by
    simp only [userStep, h.liftCall ha heq hb]
    rfl
  refine ⟨p, t, hstep, ?_, hp', if_neg hp', rfl, ?_, hempty⟩
  · rw [heq]
    exact hdirs
  · rw [heq]
    exact ⟨htakes.subset, htakes.card_le⟩

/-- A page can be mapped as long as three frames are free. -/
theorem mapStep (h : UserInv s) {v : Nat} (hp : p ∈ s.procs.dirs) (hv : UserHalf v)
    (hzero : s.procs.translate p v = 0)
    (hfree : 3 ≤ s.procs.blocks.alloc.mem.freeFrames.card) :
    ∃ f u, s.procs.blocks.mapFrame p v = some (some (f * pgSize), u) ∧ 0 < f ∧
      f ∈ s.procs.blocks.alloc.mem.freeFrames ∧ f ∉ u.alloc.mem.freeFrames ∧
      ∀ w, UserHalf w → w / pgSize = v / pgSize →
        ProcsState.translate { s.procs with blocks := u } p w = f * pgSize + w % pgSize := by
  obtain ⟨a, hreach, heq⟩ := h.once
  have ha := ProcsInv.of_reachable hreach
  rw [heq] at hp hzero hfree ⊢
  obtain ⟨f, u, hmap, hpos, hfrom, hused, htranslate⟩ := ha.mapStep hp hv hzero hfree
  refine ⟨f, u.ahead s.exits, ?_, hpos, hfrom, hused, htranslate⟩
  change (a.blocks.ahead s.exits).mapFrame p v = _
  rw [BlockState.mapFrame_ahead ha.inv h.exits, hmap]
  rfl

/-- A process starts with a stack as long as three frames are free. -/
theorem startStep (h : UserInv s) (hp : p ∈ s.procs.dirs) (hnone : s.ustackBase p = 0)
    (hfree : 3 ≤ s.procs.blocks.alloc.mem.freeFrames.card) :
    ∃ f t, userStep s (.start p) = some t ∧ t.procs.dirs = s.procs.dirs ∧ t.exits = s.exits ∧
      t.ustackBase p = f * pgSize ∧ 0 < f ∧ f ∈ s.procs.blocks.alloc.mem.freeFrames ∧
      f ∉ t.procs.blocks.alloc.mem.freeFrames ∧
      ∀ w, UserHalf w → w / pgSize = userStackVaddrBase / pgSize →
        t.procs.translate p w = f * pgSize + w % pgSize := by
  obtain ⟨f, u, hmap, hpos, hfrom, hused, htranslate⟩ :=
    h.mapStep hp userHalf_stack ((h.stack p hp).trans hnone) hfree
  have hstep : userStep s (.start p) = some { s with
      procs := { s.procs with blocks := u }
      ustackBase := Function.update s.ustackBase p (f * pgSize) } := by
    simp only [userStep, UserState.startProcess, hmap]
    rfl
  exact ⟨f, _, hstep, rfl, rfl, Function.update_self .., hpos, hfrom, hused, htranslate⟩

/-- A process that has started can exit. -/
theorem exitStep (h : UserInv s) (hp : p ∈ s.procs.dirs) (hstack : s.ustackBase p ≠ 0) :
    ∃ t, userStep s (.exit p) = some t ∧ t.exits = s.exits + 1 := by
  obtain ⟨a, hreach, heq⟩ := h.once
  obtain ⟨u, -, -, hexit, -⟩ := h.procExit (ProcsInv.of_reachable hreach) heq hp hstack
  simp only [userStep, UserState.procExit, hexit]
  exact ⟨_, rfl, rfl⟩

/-- Without a free frame a process does not come to its start. -/
theorem start_none (h : UserInv s) (hallowed : UserAllowed s (.start p))
    (hnone : s.procs.blocks.alloc.mem.freeFrames = ∅) : userStep s (.start p) = none := by
  by_contra hsome
  obtain ⟨t, hstep⟩ := Option.ne_none_iff_exists'.mp hsome
  obtain ⟨a, hreach, heq⟩ := h.once
  have ha := ProcsInv.of_reachable hreach
  obtain ⟨⟨hp, hv, hzero⟩, f, u, hmap, -⟩ := h.start ha heq hallowed hstep
  obtain ⟨-, hfrom, -⟩ := ha.mapped hp hv hzero hmap
  rw [heq] at hnone
  have hempty : a.blocks.alloc.mem.freeFrames = ∅ := hnone
  rw [hempty] at hfrom
  exact absurd hfrom (Finset.notMem_empty _)

/-- A page that is mapped can be unmapped. -/
theorem unmapStep (h : UserInv s) {v : Nat} (hp : p ∈ s.procs.dirs) (hv : UserHalf v)
    (haligned : v % pgSize = 0) (hne : s.procs.translate p v ≠ 0) :
    ∃ t, userStep s (.unmap p v) = some t ∧ t.procs.blocks.alloc.mem.freeFrames =
        insert (s.procs.translate p v / pgSize) s.procs.blocks.alloc.mem.freeFrames ∧
      ∀ w, UserHalf w → w / pgSize = v / pgSize → t.procs.translate p w = 0 := by
  obtain ⟨a, hreach, heq⟩ := h.once
  have ha := ProcsInv.of_reachable hreach
  have hp' : p ∈ a.dirs := by
    rw [heq] at hp
    exact hp
  have hsame : s.procs.translate p v = a.translate p v := by
    rw [heq]
    rfl
  obtain ⟨b, hb, hframes, hzero⟩ := ha.unmapStep hp' hv haligned (hsame ▸ hne)
  have hstep : userStep s (.unmap p v) = some { s with procs := b.ahead s.exits } := by
    simp only [userStep, h.liftCall ha heq hb]
    rfl
  refine ⟨_, hstep, ?_, hzero⟩
  rw [hsame, heq]
  exact hframes

end UserInv

/-! ## A process with a stack -/

/-- A machine with 13 free frames, before there is a process. -/
def bootUser : UserState := ⟨⟨bootBlocks, [], bootBlocks.held⟩, fun _ => 0, 0⟩

theorem bootUser_reachable : userSystem.ReachableWhen UserAllowed bootUser :=
  .init ⟨⟨bootBlocks_init, rfl, rfl⟩, rfl⟩

/-- A run that ends with a process that has started. -/
theorem exists_started : ∃ (s : UserState) (p : Nat),
    userSystem.ReachableWhen UserAllowed s ∧ p ∈ s.procs.dirs ∧ s.ustackBase p ≠ 0 ∧
      s.exits = 0 := by
  have h := UserInv.of_reachable bootUser_reachable
  have hcard : bootUser.procs.blocks.alloc.mem.freeFrames.card = 13 :=
    (BlockState.Sound.counted ⟨_, _, .init bootBlocks_init⟩).symm
  obtain ⟨p, t, hcreate, hdirs, -, hnone, hexits, htakes, hzero⟩ := h.createStep (by omega)
  have hallowed : UserAllowed bootUser .create := trivial
  have hreach := bootUser_reachable.step hallowed hcreate
  have hle := htakes.card_le
  have hp : p ∈ t.procs.dirs := hdirs ▸ List.mem_cons_self
  obtain ⟨f, u, hstart, hdirs', hexits', hbase, hpos, -⟩ :=
    (UserInv.of_reachable hreach).startStep hp hnone (by omega)
  have hallowed' : UserAllowed t (.start p) := ⟨hp, hnone⟩
  refine ⟨u, p, hreach.step hallowed' hstart, hdirs' ▸ hp, ?_, hexits'.trans hexits⟩
  rw [hbase]
  unfold pgSize
  omega

/-! ## What holds in every run -/

/-- Every run is one in which `proc_exit` gives the frame of the stack back once, but for the
counter of free frames, which is ahead by the number of exits. -/
theorem userSystem_refines {s : UserState} (hreach : userSystem.ReachableWhen UserAllowed s) :
    s.procs.blocks.alloc.mem.freePages =
        s.procs.blocks.alloc.mem.freeFrames.card + s.exits ∧
      ∃ a, procsSystem.ReachableWhen ProcsAllowed a ∧ s.procs = a.ahead s.exits ∧
        ∀ c t, UserAllowed s c → userStep s c = some t → ∃ b, ProcsAllowed a c.once ∧
          procsStep a c.once = some b ∧ t.procs = b.ahead t.exits := by
  have h := UserInv.of_reachable hreach
  obtain ⟨a, ha, heq⟩ := h.once
  have hinv := ProcsInv.of_reachable ha
  refine ⟨?_, a, ha, heq, fun c t hallowed hstep => ?_⟩
  · rw [heq]
    exact Mem.freePages_ahead (BlockState.Sound.counted hinv.inv) h.exits
  · obtain ⟨b, hallowed', hb, ht, -⟩ := h.simulated hinv heq hallowed hstep
    exact ⟨b, hallowed', hb, ht⟩

/-- After a process has exited the counter says one frame too many. -/
theorem userSystem_refines_exit : ∃ (s t : UserState) (p : Nat), userStep s (.exit p) = some t ∧
    t.procs.blocks.alloc.mem.freePages = t.procs.blocks.alloc.mem.freeFrames.card + 1 := by
  obtain ⟨s, p, hreach, hp, hstack, hexits⟩ := exists_started
  obtain ⟨t, hstep, hcount⟩ := (UserInv.of_reachable hreach).exitStep hp hstack
  have hallowed : UserAllowed s (.exit p) := ⟨hp, hstack, by rw [hexits]; decide⟩
  have hlast := (userSystem_refines (hreach.step hallowed hstep)).1
  rw [hcount, hexits] at hlast
  exact ⟨s, t, p, hstep, hlast⟩

/-- In every run what is held is the kernel's or one process's. An exit of any process gives its
tables and its frames back, and nothing else: `free_page_table` alone would make one call for each
of them, and `proc_exit` leaves what it would leave but for one frame more in the counter. -/
theorem userSystem_accounted {s : UserState} (hreach : userSystem.ReachableWhen UserAllowed s) :
    Parts s.procs.blocks.held s.procs.part ∧
      ∀ p ∈ s.procs.dirs, s.ustackBase p ≠ 0 → ∃ u calls,
        s.procs.blocks.freePageTable p = some u ∧ s.procs.blocks.Run calls u ∧ calls.Nodup ∧
        BlockState.Given calls ∩ s.procs.blocks.held = s.procs.blocks.owned p ∧
        s.procs.blocks.procExit p (s.ustackBase p) = some (u.ahead 1) ∧
        u.held = s.procs.blocks.held \ s.procs.blocks.owned p := by
  have h := UserInv.of_reachable hreach
  obtain ⟨a, ha, heq⟩ := h.once
  have hinv := ProcsInv.of_reachable ha
  refine ⟨?_, fun p hp hstack => ?_⟩
  · rw [heq]
    exact hinv.parts
  · obtain ⟨u, -, hfree, hexit, hrun, hacts⟩ := h.procExit hinv heq hp hstack
    have hdirs : p ∈ a.dirs := by
      rw [heq] at hp
      exact hp
    obtain ⟨contents, group, hblocks⟩ := hinv.inv
    have hready := (hinv.owns p hdirs).ready hblocks
    have hgiven := (hinv.owns p hdirs).given_eq hblocks
    have hheld : u.held = a.blocks.held \ a.blocks.owned p := by
      rw [hacts.after, Set.union_empty]
    refine ⟨u.ahead s.exits, _, hfree, ?_, hready.nodup, ?_, ?_, ?_⟩
    · rw [heq]
      exact hready.ahead hrun h.exits
    · rw [heq]
      exact hgiven
    · rw [hexit, BlockState.ahead_ahead]
    · rw [heq]
      exact hheld

/-- After the only process has exited the kernel has all that is held. -/
theorem userSystem_accounted_exit : ∃ (s : UserState) (p : Nat) (u : BlockState),
    s.procs.blocks.procExit p (s.ustackBase p) = some (u.ahead 1) ∧
      u.held = s.procs.blocks.held \ s.procs.blocks.owned p := by
  obtain ⟨s, p, hreach, hp, hstack, -⟩ := exists_started
  obtain ⟨u, -, -, -, -, -, hexit, hheld⟩ := (userSystem_accounted hreach).2 p hp hstack
  exact ⟨s, p, u, hexit, hheld⟩

/-- In every run a process can be created as long as a frame is free, and nothing is mapped in it.
It starts with a stack as long as three are free, and fails an `ASSERT` if none is. A page can be
mapped as long as three frames are free. The frames come from the free ones. A page that is mapped
can be unmapped, and its frame is free again. -/
theorem userSystem_served {s : UserState} (hreach : userSystem.ReachableWhen UserAllowed s) :
    (0 < s.procs.blocks.alloc.mem.freeFrames.card → ∃ p t, userStep s .create = some t ∧
      t.procs.dirs = p :: s.procs.dirs ∧ p ∉ s.procs.dirs ∧
      ∀ w, UserHalf w → t.procs.translate p w = 0) ∧
    (∀ p ∈ s.procs.dirs, s.ustackBase p = 0 →
      (s.procs.blocks.alloc.mem.freeFrames = ∅ → userStep s (.start p) = none) ∧
      (3 ≤ s.procs.blocks.alloc.mem.freeFrames.card → ∃ f t, userStep s (.start p) = some t ∧
        t.ustackBase p = f * pgSize ∧ f ∈ s.procs.blocks.alloc.mem.freeFrames ∧
        f ∉ t.procs.blocks.alloc.mem.freeFrames ∧
        ∀ w, UserHalf w → w / pgSize = userStackVaddrBase / pgSize →
          t.procs.translate p w = f * pgSize + w % pgSize)) ∧
    (∀ p ∈ s.procs.dirs, ∀ v, UserHalf v → s.procs.translate p v = 0 →
      3 ≤ s.procs.blocks.alloc.mem.freeFrames.card → ∃ f t, userStep s (.map p v) = some t ∧
        f ∈ s.procs.blocks.alloc.mem.freeFrames ∧ f ∉ t.procs.blocks.alloc.mem.freeFrames ∧
        ∀ w, UserHalf w → w / pgSize = v / pgSize →
          t.procs.translate p w = f * pgSize + w % pgSize) ∧
    ∀ p ∈ s.procs.dirs, ∀ v, UserHalf v → v % pgSize = 0 → s.procs.translate p v ≠ 0 →
      ∃ t, userStep s (.unmap p v) = some t ∧ t.procs.blocks.alloc.mem.freeFrames =
          insert (s.procs.translate p v / pgSize) s.procs.blocks.alloc.mem.freeFrames ∧
        ∀ w, UserHalf w → w / pgSize = v / pgSize → t.procs.translate p w = 0 := by
  have h := UserInv.of_reachable hreach
  refine ⟨fun hfree => ?_, fun p hp hnone => ⟨h.start_none ⟨hp, hnone⟩, fun hfree => ?_⟩,
    fun p hp v hv hzero hfree => ?_,
    fun p hp v hv haligned hne => h.unmapStep hp hv haligned hne⟩
  · obtain ⟨p, t, hstep, hdirs, hp, -, -, -, hempty⟩ := h.createStep hfree
    exact ⟨p, t, hstep, hdirs, hp, hempty⟩
  · obtain ⟨f, t, hstep, -, -, hbase, -, hrest⟩ := h.startStep hp hnone hfree
    exact ⟨f, t, hstep, hbase, hrest⟩
  · obtain ⟨f, u, hmap, -, hfrom, hused, htranslate⟩ := h.mapStep hp hv hzero hfree
    have hstep : userStep s (.map p v) = some { s with procs := { s.procs with blocks := u } } := by
      simp only [userStep, procsStep, hmap]
      rfl
    exact ⟨f, _, hstep, hfrom, hused, htranslate⟩

/-- In the state before the first process one can be created. -/
theorem userSystem_served_boot : ∃ p t, userStep bootUser .create = some t ∧
    t.procs.dirs = [p] := by
  have hcard : bootUser.procs.blocks.alloc.mem.freeFrames.card = 13 :=
    (BlockState.Sound.counted ⟨_, _, .init bootBlocks_init⟩).symm
  obtain ⟨p, t, hstep, hdirs, -⟩ := (userSystem_served bootUser_reachable).1 (by omega)
  exact ⟨p, t, hstep, hdirs⟩

end ClayFigure
