/-
# The kernel half of the page directories

`create_page_dir` of `task/proc.c` copies the upper half of the kernel's directory into
the directory of a new process, once. Later mappings in the kernel's directory show in
the process as long as they are made below an entry that was there to be copied; an entry
the kernel adds to its directory afterwards is missing in every process that exists. The
results say which runs keep the two halves the same and that every other step parts them.
-/

import ClayFigure.Math.Transition
import ClayFigure.Mem.PageTable

namespace ClayFigure

open ClayFigure.Math

/-! ## The code -/

/-- `create_page_dir`; `pgdir` is the block `kmalloc` gives, and the directory returned is
`none` for `NULL`. -/
def Memory.createPageDir (mem : Memory) : Option Nat → Memory × Option Nat
  | none => (mem, none)
  | some pgdir =>
      let cleared := mem.zeroTable pgdir
      (fun a =>
        if pgdir + 0x800 ≤ a ∧ a < pgdir + 0x800 + 0x800 then
          cleared (kernelPageDirTablePos + 0x800 + (a - (pgdir + 0x800)))
        else cleared a, some pgdir)

/-- The memory with the blocks in use as page tables and the directories of the
processes that exist. -/
structure DirState where
  mem : Memory
  used : List Nat
  live : List Nat

/-- One call, with the blocks `kmalloc` gives when it is asked. -/
inductive DirCall
  | createPageDir (pgdir : Option Nat)
  | pageMapUser (dir paddr vaddr : Nat) (pdpt pdt : Option Nat)
  | pageMapKernel (paddr vaddr : Nat) (pdpt pdt : Option Nat)

/-- An address of the lower half. -/
abbrev UserHalf (vaddr : Nat) : Prop := vaddr < 2 ^ 47

/-- A canonical address of the upper half. -/
abbrev KernelHalf (vaddr : Nat) : Prop := 2 ^ 64 - 2 ^ 47 ≤ vaddr ∧ vaddr < 2 ^ 64

/-- What `kmalloc` gives: an aligned block that is not in use. -/
def DirState.Fresh (s : DirState) (block : Option Nat) : Prop :=
  ∀ table ∈ block, table % ptSize = 0 ∧ table < 2 ^ 64 ∧ table ∉ s.used

/-- The two blocks of one `page_map`. -/
structure DirState.FreshPair (s : DirState) (pdpt pdt : Option Nat) : Prop where
  freshPdpt : s.Fresh pdpt
  freshPdt : s.Fresh pdt
  ne : ∀ table ∈ pdpt, table ∉ pdt

inductive DirStep : DirState → DirCall → DirState → Prop
  | createPageDir {s : DirState} {pgdir : Option Nat} (hfresh : s.Fresh pgdir) :
      DirStep s (.createPageDir pgdir)
        { mem := (s.mem.createPageDir pgdir).1
          used := pgdir.toList ++ s.used
          live := (s.mem.createPageDir pgdir).2.toList ++ s.live }
  | pageMapUser {s : DirState} {mem : Memory} {dir paddr vaddr : Nat} {pdpt pdt : Option Nat}
      (hdir : dir ∈ s.live) (hvaddr : UserHalf vaddr) (hpaddr : paddr < 2 ^ 64)
      (hfresh : s.FreshPair pdpt pdt)
      (hmap : s.mem.pageMap dir paddr vaddr pdpt pdt = some mem) :
      DirStep s (.pageMapUser dir paddr vaddr pdpt pdt)
        { s with mem := mem, used := pdpt.toList ++ pdt.toList ++ s.used }
  | pageMapKernel {s : DirState} {mem : Memory} {paddr vaddr : Nat} {pdpt pdt : Option Nat}
      (hvaddr : KernelHalf vaddr) (hpaddr : paddr < 2 ^ 64) (hfresh : s.FreshPair pdpt pdt)
      (hmap : s.mem.pageMap kernelPageDirTablePos paddr vaddr pdpt pdt = some mem) :
      DirStep s (.pageMapKernel paddr vaddr pdpt pdt)
        { s with mem := mem, used := pdpt.toList ++ pdt.toList ++ s.used }

/-- The directory of the kernel and the tables below its upper half, by level. -/
def KernelTable (mem : Memory) (level table : Nat) : Prop :=
  ∃ path : List (Fin 512), path.length = level ∧ (∀ i ∈ path.head?, 256 ≤ i.val) ∧
    mem.walk kernelPageDirTablePos path = some table

/-- Before the first process: the kernel's tables are in use, and none is a table of two
levels. -/
structure DirInit (s : DirState) : Prop where
  live : s.live = []
  tablesUsed : ∀ level table, level ≤ 2 → KernelTable s.mem level table → table ∈ s.used
  oneLevel : ∀ level level' table, level ≤ 2 → level' ≤ 2 → KernelTable s.mem level table →
    KernelTable s.mem level' table → level = level'

def dirSystem : System DirState DirCall := ⟨DirInit, DirStep⟩

/-- Every kernel-half address translates in each process as in the kernel. -/
def DirState.Agree (s : DirState) : Prop :=
  ∀ dir ∈ s.live, ∀ a, KernelHalf a →
    s.mem.toPhysicalAddress dir a = s.mem.toPhysicalAddress kernelPageDirTablePos a

/-- A mapping in the kernel's directory adds no entry to the directory itself, or it is made
before there is a process. -/
def DirState.SharesEntry (s : DirState) : DirCall → Prop
  | .createPageDir _ => True
  | .pageMapUser .. => True
  | .pageMapKernel _ vaddr _ _ =>
      s.live = [] ∨ s.mem (kernelPageDirTablePos + 8 * addrPml4tIndex vaddr) &&& pgP ≠ 0

/-! ## Levels of tables -/

/-- The entries of the kernel's directory that lead to its own tables: the lower half, which
no process shares, is left out. -/
abbrev Visible (table : Nat) (i : Fin 512) : Prop := table = kernelPageDirTablePos → 256 ≤ i.val

/-- Every table in use has a level: directories 0, their tables 1, page directories 2. -/
structure Memory.Levels (mem : Memory) (level : Nat → Option Nat) : Prop where
  graded : Graded entryLink mem.tableWord Visible 2 level
  aligned : ∀ table, level table ≠ none → table % ptSize = 0
  kernel : level kernelPageDirTablePos = some 0

/-- Blocks `blocks` have become tables. -/
structure LevelsGrow (level level' : Nat → Option Nat) (blocks : List Nat) : Prop where
  keep : ∀ table l, level table = some l → level' table = some l
  fresh : ∀ table, level' table ≠ none → level table ≠ none ∨ table ∈ blocks

theorem LevelsGrow.trans {level level' level'' : Nat → Option Nat} {blocks blocks' : List Nat}
    (h : LevelsGrow level level' blocks) (h' : LevelsGrow level' level'' blocks') :
    LevelsGrow level level'' (blocks ++ blocks') := by
  refine ⟨fun table l htable => h'.keep _ _ (h.keep _ _ htable), fun table htable => ?_⟩
  rcases h'.fresh table htable with hold | hnew
  · exact (h.fresh table hold).imp_right (List.mem_append_left _)
  · exact Or.inr (List.mem_append_right _ hnew)

namespace Memory

variable {mem mem' : Memory} {level : Nat → Option Nat} {table l : Nat} {i : Fin 512}

/-- A write into a table in use changes one cell of the tables in use. -/
theorem Levels.tableWord_write (h : mem.Levels level) (htable : level table ≠ none) (word : Nat)
    {u : Nat} (hu : level u ≠ none) {j : Fin 512} (hne : ¬ (u = table ∧ j = i)) :
    (mem.write (table + 8 * (i : Nat)) word).tableWord u j = mem.tableWord u j :=
  Function.update_of_ne (entry_ne (h.aligned _ htable) (h.aligned _ hu) hne) ..

/-- Clearing an aligned block that is no table in use. -/
theorem Levels.tableWord_zeroTable (h : mem.Levels level) {fresh u : Nat}
    (halign : fresh % ptSize = 0) (hfresh : level fresh = none) (hu : level u ≠ none)
    (j : Fin 512) : (mem.zeroTable fresh).tableWord u j = mem.tableWord u j := by
  have hne : u ≠ fresh := by
    rintro rfl
    exact hu hfresh
  have halign' := h.aligned u hu
  have hj := j.isLt
  unfold ptSize at halign halign'
  rw [tableWord, zeroTable, if_neg]
  · rfl
  · unfold ptSize
    omega

theorem tableWord_zeroTable_self (fresh : Nat) (j : Fin 512) :
    (mem.zeroTable fresh).tableWord fresh j = 0 := by
  have hj := j.isLt
  rw [tableWord, zeroTable, if_pos]
  unfold ptSize
  omega

/-- A cleared block gets a level. -/
theorem Levels.aligned_update (h : mem.Levels level) {fresh : Nat} (l : Nat)
    (halign : fresh % ptSize = 0) (table : Nat)
    (htable : Function.update level fresh (some l) table ≠ none) : table % ptSize = 0 := by
  by_cases hnew : table = fresh
  · rw [hnew]
    exact halign
  · rw [Function.update_of_ne hnew] at htable
    exact h.aligned table htable

theorem levelsGrow_update {fresh l : Nat} (hfresh : level fresh = none) :
    LevelsGrow level (Function.update level fresh (some l)) [fresh] := by
  refine ⟨fun table k htable => ?_, fun table htable => ?_⟩
  · rw [Function.update_of_ne, htable]
    rintro rfl
    rw [hfresh] at htable
    cases htable
  · by_cases hnew : table = fresh
    · exact Or.inr (List.mem_singleton.mpr hnew)
    · rw [Function.update_of_ne hnew] at htable
      exact Or.inl htable

/-- A table is hung below the entry if there was none; nothing else changes. -/
theorem Levels.ensureTable (h : mem.Levels level) (htable : level table = some l) (hl : l < 2)
    (hvisible : Visible table i) {fresh : Option Nat}
    (hfresh : ∀ f ∈ fresh, f % ptSize = 0 ∧ f < 2 ^ 64 ∧ level f = none)
    (hok : mem.ensureTable (table + 8 * (i : Nat)) fresh = some mem') :
    ∃ level' next, mem'.Levels level' ∧ LevelsGrow level level' fresh.toList ∧
      entryLink (mem'.tableWord table i) = some next ∧ level' next = some (l + 1) ∧
      (∀ u j, level u ≠ none → ¬ (u = table ∧ j = i) →
        mem'.tableWord u j = mem.tableWord u j) ∧
      (entryLink (mem.tableWord table i) ≠ none → mem' = mem) := by
  have hin : level table ≠ none := by simp [htable]
  rw [Memory.ensureTable] at hok
  split at hok
  · next habsent =>
      obtain ⟨f, hf, rfl⟩ := Option.map_eq_some_iff.mp hok
      obtain ⟨halign, hbounded, hnew⟩ := hfresh f hf
      have hzero : ∀ u j, level u ≠ none → (mem.zeroTable f).tableWord u j = mem.tableWord u j :=
        fun u j hu => h.tableWord_zeroTable halign hnew hu j
      have hframe : ∀ u j, level u ≠ none → ¬ (u = table ∧ j = i) →
          ((mem.zeroTable f).write (table + 8 * (i : Nat)) (f ||| pgTableFlags)).tableWord u j =
            mem.tableWord u j := fun u j hu hne =>
        (Function.update_of_ne (entry_ne (h.aligned _ hin) (h.aligned _ hu) hne) ..).trans
          (hzero u j hu)
      have hlink : entryLink (((mem.zeroTable f).write (table + 8 * (i : Nat))
          (f ||| pgTableFlags)).tableWord table i) = some f := by
        rw [tableWord, write, Function.update_self]
        exact entryLink_or hbounded halign (by decide) (by decide)
      have hempty (j : Fin 512) : entryLink (((mem.zeroTable f).write (table + 8 * (i : Nat))
          (f ||| pgTableFlags)).tableWord f j) = none := by
        have hne : ¬ (f = table ∧ j = i) := by
          rintro ⟨rfl, -⟩
          exact hin hnew
        rw [tableWord, write, Function.update_of_ne (entry_ne (h.aligned _ hin) halign hne)]
        rw [show mem.zeroTable f (f + 8 * (j : Nat)) = 0 from tableWord_zeroTable_self f j]
        exact entryLink_zero
      have hgrow : LevelsGrow level (Function.update level f (some (l + 1))) [f] :=
        levelsGrow_update hnew
      refine ⟨Function.update level f (some (l + 1)), f, ⟨?_, ?_, ?_⟩, ?_, hlink, ?_, hframe, ?_⟩
      · exact h.graded.link htable hnew hframe hlink hempty
      · exact h.aligned_update _ halign
      · exact hgrow.keep _ _ h.kernel
      · rw [Option.mem_def.mp hf]
        exact hgrow
      · exact Function.update_self ..
      · exact fun hpresent => absurd (entryLink_eq_none.mpr habsent) hpresent
  · next hpresent =>
      obtain rfl := Option.some.inj hok
      have hlink : entryLink (mem.tableWord table i) =
          some (mem (table + 8 * (i : Nat)) &&& entryMask) := if_neg hpresent
      exact ⟨level, _, h, ⟨fun _ _ => id, fun _ => Or.inl⟩, hlink,
        h.graded _ _ _ _ htable hl hvisible hlink, fun _ _ _ _ => rfl, fun _ => rfl⟩

/-- What `page_map` does to the tables in use: the page gets its frame, and the only entry of
a directory that may change is the one on the page's path, if it was absent. -/
theorem Levels.pageMap (h : mem.Levels level) {dir paddr vaddr : Nat} {pdpt pdt : Option Nat}
    (hdir : level dir = some 0) (hvisible : Visible dir (pml4tIndex vaddr))
    (hvaddr : vaddr < 2 ^ 64) (hpaddr : paddr < 2 ^ 64)
    (hpdpt : ∀ t ∈ pdpt, t % ptSize = 0 ∧ t < 2 ^ 64 ∧ level t = none)
    (hpdt : ∀ t ∈ pdt, t % ptSize = 0 ∧ t < 2 ^ 64 ∧ level t = none)
    (hne : ∀ t ∈ pdpt, t ∉ pdt) (hok : mem.pageMap dir paddr vaddr pdpt pdt = some mem') :
    ∃ level', mem'.Levels level' ∧ LevelsGrow level level' (pdpt.toList ++ pdt.toList) ∧
      mem'.walk dir (indexPath vaddr) = some (paddr / pgSize * pgSize) ∧
      ∀ u j, level u = some 0 →
        (u = dir ∧ j = pml4tIndex vaddr → entryLink (mem.tableWord u j) ≠ none) →
        mem'.tableWord u j = mem.tableWord u j := by
  obtain ⟨mem₁, mem₂, hstep₁, hstep₂, rfl⟩ := (pageMap_eq_some hvaddr).mp hok
  obtain ⟨level₁, table₁, h₁, hgrow₁, hlink₁, htable₁, hframe₁, hsame₁⟩ :=
    h.ensureTable hdir (by decide) hvisible hpdpt hstep₁
  have hentry₁ := (entryLink_eq_some hlink₁).2
  rw [show mem₁ (dir + 8 * (pml4tIndex vaddr : Nat)) &&& entryMask = table₁ from hentry₁] at *
  have hvisible₁ : Visible table₁ (pdptIndex vaddr) := by
    rintro rfl
    rw [h₁.kernel] at htable₁
    cases htable₁
  have hpdt₁ : ∀ t ∈ pdt, t % ptSize = 0 ∧ t < 2 ^ 64 ∧ level₁ t = none := by
    intro t ht
    obtain ⟨halign, hbounded, hold⟩ := hpdt t ht
    refine ⟨halign, hbounded, by_contra fun hnew => ?_⟩
    rcases hgrow₁.fresh t hnew with hin | hin
    · exact hin hold
    · exact hne t (Option.mem_toList.mp hin) ht
  obtain ⟨level₂, table₂, h₂, hgrow₂, hlink₂, htable₂, hframe₂, -⟩ :=
    h₁.ensureTable htable₁ (by decide) hvisible₁ hpdt₁ hstep₂
  rw [show mem₂ (table₁ + 8 * (pdptIndex vaddr : Nat)) &&& entryMask = table₂ from
    (entryLink_eq_some hlink₂).2]
  have hin₂ : level₂ table₂ ≠ none := by simp [htable₂]
  have hframe₃ : ∀ u j, level₂ u ≠ none → ¬ (u = table₂ ∧ j = pdtIndex vaddr) → _ =
      mem₂.tableWord u j := fun u j hu hne => h₂.tableWord_write hin₂
    ((paddr &&& pageMask) ||| pgDefaultFlags) hu hne
  -- The tables of the three levels are different, so only the first stage touches a directory.
  have hdirectory (u : Nat) (hu : level u = some 0) (j : Fin 512) :
      (mem₂.write (table₂ + 8 * (pdtIndex vaddr : Nat))
        ((paddr &&& pageMask) ||| pgDefaultFlags)).tableWord u j = mem₁.tableWord u j := by
    have hu₁ := hgrow₁.keep _ _ hu
    have hu₂ := hgrow₂.keep _ _ hu₁
    rw [hframe₃ u j (by simp [hu₂]), hframe₂ u j (by simp [hu₁])]
    · rintro ⟨rfl, -⟩
      rw [hu₁] at htable₁
      cases htable₁
    · rintro ⟨rfl, -⟩
      rw [hu₂] at htable₂
      cases htable₂
  refine ⟨level₂, ⟨h₂.graded.write htable₂ hframe₃, h₂.aligned, h₂.kernel⟩,
    hgrow₁.trans hgrow₂, ?_, fun u j hu hpresent => ?_⟩
  · have htable₁₂ := hgrow₂.keep _ _ htable₁
    have hentry₂ := hframe₃ table₁ (pdptIndex vaddr) (by simp [htable₁₂]) (by
      rintro ⟨rfl, -⟩
      rw [htable₁₂] at htable₂
      cases htable₂)
    have hlink₃ : entryLink ((mem₂.write (table₂ + 8 * (pdtIndex vaddr : Nat))
        ((paddr &&& pageMask) ||| pgDefaultFlags)).tableWord table₂ (pdtIndex vaddr)) =
          some (paddr / pgSize * pgSize) := by
      rw [tableWord, write, Function.update_self]
      exact entryLink_page hpaddr
    rw [← hdirectory dir hdir] at hlink₁
    rw [← hentry₂] at hlink₂
    rw [indexPath, walk_of_entryLink hlink₁, walk_of_entryLink hlink₂, walk_of_entryLink hlink₃]
    rfl
  · rw [hdirectory u hu]
    by_cases hcell : u = dir ∧ j = pml4tIndex vaddr
    · rw [hsame₁ (hcell.1 ▸ hcell.2 ▸ hpresent hcell)]
    · exact hframe₁ u j (by simp [hu]) hcell

end Memory

/-! ## Runs -/

/-- The tables in use have levels, the directories of the processes among them, and these
have the kernel's entries in their upper half. -/
structure DirState.Shared (s : DirState) (level : Nat → Option Nat) : Prop where
  levels : s.mem.Levels level
  used : ∀ table, level table ≠ none → table ∈ s.used
  dirs : ∀ dir ∈ s.live, level dir = some 0 ∧ dir ≠ kernelPageDirTablePos
  same : ∀ dir ∈ s.live, ∀ i : Fin 512, 256 ≤ i.val →
    s.mem.tableWord dir i = s.mem.tableWord kernelPageDirTablePos i

theorem KernelHalf.index {a : Nat} (ha : KernelHalf a) : 256 ≤ (Memory.pml4tIndex a).val := by
  have heq : (Memory.pml4tIndex a).val = a / 2 ^ 39 % 512 := getField_eq a 39
  unfold KernelHalf at ha
  omega

theorem UserHalf.index {a : Nat} (ha : UserHalf a) : (Memory.pml4tIndex a).val < 256 := by
  have heq : (Memory.pml4tIndex a).val = a / 2 ^ 39 % 512 := getField_eq a 39
  unfold UserHalf at ha
  omega

namespace DirState

variable {s t : DirState} {level : Nat → Option Nat}

/-- Equal entries give equal translations: what is below an entry is one tree. -/
theorem Shared.agree (h : s.Shared level) : s.Agree := by
  intro dir hdir a ha
  have hsame : s.mem (dir + 8 * (Memory.pml4tIndex a : Nat)) =
      s.mem (kernelPageDirTablePos + 8 * (Memory.pml4tIndex a : Nat)) := h.same dir hdir _ ha.index
  have hwalk : s.mem.walk dir (Memory.indexPath a) =
      s.mem.walk kernelPageDirTablePos (Memory.indexPath a) := by
    rw [Memory.indexPath, Memory.walk_cons, Memory.walk_cons, hsame]
  rw [Memory.toPhysicalAddress_eq, Memory.toPhysicalAddress_eq, hwalk]

/-- The kernel's tables at start have levels. -/
theorem Shared.init (h : DirInit s) : ∃ level, s.Shared level := by
  obtain ⟨level, hlevel⟩ := exists_level h.oneLevel
  have hreach {table : Nat} (htable : level table ≠ none) :
      ∃ l, l ≤ 2 ∧ KernelTable s.mem l table := by
    obtain ⟨l, hl⟩ := Option.ne_none_iff_exists'.mp htable
    exact ⟨l, (hlevel table l).mp hl⟩
  refine ⟨level, ⟨fun table l i table' htable hl hvisible hlink => ?_, fun table htable => ?_,
    ?_⟩, fun table htable => ?_, ?_, ?_⟩
  · obtain ⟨-, path, rfl, hhead, hwalk⟩ := (hlevel table l).mp htable
    refine (hlevel table' _).mpr ⟨hl, path ++ [i], ?_, ?_, ?_⟩
    · rw [List.length_append, List.length_singleton]
    · cases path with
      | nil =>
          have hkernel := (Option.some.inj hwalk).symm
          simpa using hvisible hkernel
      | cons j path => simpa using hhead
    · rw [Memory.walk_concat, hwalk, Option.bind_some]
      exact hlink
  · obtain ⟨l, -, path, -, -, hwalk⟩ := hreach htable
    exact Memory.walk_aligned (by decide) hwalk
  · exact (hlevel _ 0).mpr ⟨by decide, [], rfl, by simp, rfl⟩
  · obtain ⟨l, hl, htable⟩ := hreach htable
    exact h.tablesUsed l table hl htable
  · simp [h.live]
  · simp [h.live]

/-- The words `create_page_dir` writes. -/
theorem tableWord_createPageDir {mem : Memory} {pgdir : Nat} (hlevels : mem.Levels level)
    (halign : pgdir % ptSize = 0) (hfresh : level pgdir = none) (u : Nat) (i : Fin 512)
    (hu : u = pgdir ∨ level u ≠ none) :
    (mem.createPageDir (some pgdir)).1.tableWord u i =
      if u = pgdir then if i.val < 256 then 0 else mem.tableWord kernelPageDirTablePos i
      else mem.tableWord u i := by
  have hi := i.isLt
  have hcleared : ∀ u i, level u ≠ none →
      (mem.zeroTable pgdir).tableWord u i = mem.tableWord u i :=
    fun u i hu => hlevels.tableWord_zeroTable halign hfresh hu i
  have hkernel : level kernelPageDirTablePos ≠ none := by simp [hlevels.kernel]
  simp only [Memory.createPageDir]
  split
  · next hself =>
      obtain rfl := hself
      split
      · next hlow =>
          rw [Memory.tableWord, if_neg (by omega)]
          exact Memory.tableWord_zeroTable_self u i
      · next hhigh =>
          have hsource : kernelPageDirTablePos + 0x800 + (u + 8 * i.val - (u + 0x800)) =
              kernelPageDirTablePos + 8 * i.val := by omega
          rw [Memory.tableWord, if_pos (by omega), hsource]
          exact hcleared _ i hkernel
  · next hother =>
      have hin := hu.resolve_left hother
      have hu' := hlevels.aligned u hin
      unfold ptSize at halign hu'
      rw [Memory.tableWord, if_neg (by omega)]
      exact hcleared u i hin

/-- A new process starts with the kernel's entries. -/
theorem Shared.createPageDir (h : s.Shared level) {pgdir : Option Nat} (hfresh : s.Fresh pgdir) :
    ∃ level', Shared
      { mem := (s.mem.createPageDir pgdir).1
        used := pgdir.toList ++ s.used
        live := (s.mem.createPageDir pgdir).2.toList ++ s.live } level' := by
  cases pgdir with
  | none => exact ⟨level, h⟩
  | some d =>
      obtain ⟨halign, -, hunused⟩ := hfresh d rfl
      have hnew : level d = none := by_contra fun hin => hunused (h.used d hin)
      have hne {table : Nat} (htable : level table ≠ none) : table ≠ d := by
        rintro rfl
        exact htable hnew
      have hword (u : Nat) (i : Fin 512) (hu : u = d ∨ level u ≠ none) :=
        tableWord_createPageDir h.levels halign hnew u i hu
      have hframe : ∀ u i, level u ≠ none →
          (s.mem.createPageDir (some d)).1.tableWord u i = s.mem.tableWord u i := fun u i hu => by
        rw [hword u i (Or.inr hu), if_neg (hne hu)]
      have hkernel : level kernelPageDirTablePos ≠ none := by simp [h.levels.kernel]
      have hgrow : LevelsGrow level (Function.update level d (some 0)) [d] :=
        Memory.levelsGrow_update hnew
      refine ⟨Function.update level d (some 0), ⟨⟨?_, h.levels.aligned_update 0 halign, ?_⟩, ?_,
        ?_, ?_⟩⟩
      · refine h.levels.graded.insert hnew hframe fun i table _ hlink => ?_
        rw [hword d i (Or.inl rfl), if_pos rfl] at hlink
        split at hlink
        · cases hlink
        · next hhigh =>
            exact h.levels.graded _ 0 i table h.levels.kernel (by decide)
              (fun _ => not_lt.mp hhigh) hlink
      · exact hgrow.keep _ _ h.levels.kernel
      · intro table htable
        rcases hgrow.fresh table htable with hold | hd
        · exact List.mem_append_right _ (h.used table hold)
        · exact List.mem_append_left _ hd
      · intro dir hdir
        rcases List.mem_append.mp hdir with hd | hold
        · obtain rfl := List.mem_singleton.mp hd
          exact ⟨Function.update_self .., (hne hkernel).symm⟩
        · exact ⟨hgrow.keep _ _ (h.dirs dir hold).1, (h.dirs dir hold).2⟩
      · intro dir hdir i hi
        rw [hframe _ i hkernel]
        rcases List.mem_append.mp hdir with hd | hold
        · obtain rfl := List.mem_singleton.mp hd
          rw [hword dir i (Or.inl rfl), if_pos rfl, if_neg (not_lt.mpr hi)]
        · rw [hframe dir i (by simp [(h.dirs dir hold).1])]
          exact h.same dir hold i hi

/-- What `kmalloc` gives has no level yet. -/
theorem Shared.fresh (h : s.Shared level) {block : Option Nat} (hfresh : s.Fresh block) :
    ∀ t ∈ block, t % ptSize = 0 ∧ t < 2 ^ 64 ∧ level t = none := by
  intro t ht
  obtain ⟨halign, hbounded, hunused⟩ := hfresh t ht
  exact ⟨halign, hbounded, by_contra fun hin => hunused (h.used t hin)⟩

/-- A mapping that leaves the upper halves of all directories as they are. -/
theorem Shared.pageMap (h : s.Shared level) {mem : Memory} {level' : Nat → Option Nat}
    {blocks : List Nat} (hlevels : mem.Levels level') (hgrow : LevelsGrow level level' blocks)
    (hsame : ∀ u (i : Fin 512), level u = some 0 → 256 ≤ i.val →
      mem.tableWord u i = s.mem.tableWord u i) :
    Shared { s with mem := mem, used := blocks ++ s.used } level' := by
  refine ⟨hlevels, fun table htable => ?_, fun dir hdir => ?_, fun dir hdir i hi => ?_⟩
  · rcases hgrow.fresh table htable with hold | hnew
    · exact List.mem_append_right _ (h.used table hold)
    · exact List.mem_append_left _ hnew
  · exact ⟨hgrow.keep _ _ (h.dirs dir hdir).1, (h.dirs dir hdir).2⟩
  · calc mem.tableWord dir i
        = s.mem.tableWord dir i := hsame dir i (h.dirs dir hdir).1 hi
      _ = s.mem.tableWord kernelPageDirTablePos i := h.same dir hdir i hi
      _ = mem.tableWord kernelPageDirTablePos i := (hsame _ i h.levels.kernel hi).symm

/-- A step that adds no entry to the kernel's directory behind the back of a process. -/
theorem Shared.step (h : s.Shared level) {call : DirCall} (hcall : s.SharesEntry call)
    (hstep : DirStep s call t) : ∃ level', t.Shared level' := by
  cases hstep with
  | createPageDir hfresh => exact h.createPageDir hfresh
  | @pageMapUser mem dir paddr vaddr pdpt pdt hdir hvaddr hpaddr hfresh hmap =>
      obtain ⟨hlevel, hne⟩ := h.dirs dir hdir
      have hbound : vaddr < 2 ^ 64 := hvaddr.trans (by decide)
      obtain ⟨level', hlevels, hgrow, -, hsame⟩ :=
        h.levels.pageMap hlevel (fun heq => absurd heq hne) hbound hpaddr
          (h.fresh hfresh.freshPdpt) (h.fresh hfresh.freshPdt) hfresh.ne hmap
      refine ⟨level', h.pageMap hlevels hgrow fun u i hu hi => hsame u i hu ?_⟩
      rintro ⟨-, rfl⟩
      exact absurd hvaddr.index (not_lt.mpr hi)
  | @pageMapKernel mem paddr vaddr pdpt pdt hvaddr hpaddr hfresh hmap =>
      obtain ⟨level', hlevels, hgrow, -, hsame⟩ :=
        h.levels.pageMap h.levels.kernel (fun _ => hvaddr.index) hvaddr.2 hpaddr
          (h.fresh hfresh.freshPdpt) (h.fresh hfresh.freshPdt) hfresh.ne hmap
      rcases hcall with hnone | hpresent
      · -- No process yet: there is nothing to agree with.
        refine ⟨level', hlevels, fun table htable => ?_, by simp [hnone], by simp [hnone]⟩
        rcases hgrow.fresh table htable with hold | hnew
        · exact List.mem_append_right _ (h.used table hold)
        · exact List.mem_append_left _ hnew
      · refine ⟨level', h.pageMap hlevels hgrow fun u i hu _ => hsame u i hu ?_⟩
        rintro ⟨rfl, rfl⟩
        exact mt entryLink_eq_none.mp hpresent

/-- An entry added to the kernel's directory is missing in every process. -/
theorem Shared.not_agree (h : s.Shared level) {call : DirCall} (hcall : ¬ s.SharesEntry call)
    (hstep : DirStep s call t) : ¬ t.Agree := by
  cases hstep with
  | createPageDir hfresh => exact absurd trivial hcall
  | pageMapUser => exact absurd trivial hcall
  | @pageMapKernel mem paddr vaddr pdpt pdt hvaddr hpaddr hfresh hmap =>
      obtain ⟨hlive, habsent⟩ := not_or.mp hcall
      obtain ⟨dir, hdir⟩ := List.exists_mem_of_ne_nil _ hlive
      obtain ⟨hlevel, hne⟩ := h.dirs dir hdir
      obtain ⟨level', -, -, hwalk, hsame⟩ :=
        h.levels.pageMap h.levels.kernel (fun _ => hvaddr.index) hvaddr.2 hpaddr
          (h.fresh hfresh.freshPdpt) (h.fresh hfresh.freshPdt) hfresh.ne hmap
      -- The byte behind the page's first one: its translation is not 0 in the kernel.
      have ha : KernelHalf (vaddr / pgSize * pgSize + 1) := by
        unfold KernelHalf pgSize at *
        omega
      have hpath : Memory.indexPath (vaddr / pgSize * pgSize + 1) = Memory.indexPath vaddr := by
        rw [Memory.indexPath_eq_iff (Or.inr ha) (Or.inr hvaddr)]
        unfold pgSize
        omega
      intro hagree
      have heq := hagree dir hdir _ ha
      have hentry : entryLink (mem.tableWord dir (Memory.pml4tIndex vaddr)) = none := by
        rw [hsame dir _ hlevel fun hcell => absurd hcell.1 hne, h.same dir hdir _ hvaddr.index]
        exact entryLink_eq_none.mpr (not_not.mp habsent)
      have hnone : mem.walk dir (Memory.indexPath vaddr) = none := by
        rw [Memory.indexPath, Memory.walk, tableAt, hentry, Option.bind_none]
      rw [Memory.toPhysicalAddress_eq, Memory.toPhysicalAddress_eq, hpath, hnone, hwalk] at heq
      have hzero : 0 = add64 (paddr / pgSize * pgSize)
          ((vaddr / pgSize * pgSize + 1) % pgSize) := heq
      unfold add64 pgSize wordSize at hzero
      omega

end DirState

/-- As long as no entry is added to the kernel's directory while there is a process, every
kernel-half address translates in every process as in the kernel; the first step that adds
one ends that. -/
theorem dirSystem_agree {s : DirState}
    (hreach : dirSystem.ReachableWhen DirState.SharesEntry s) :
    s.Agree ∧ ∀ call t, DirStep s call t → ¬ s.SharesEntry call → ¬ t.Agree := by
  have hinv : ∃ level, s.Shared level := by
    apply hreach.invariant (fun s => DirState.Shared.init)
    rintro s call t ⟨level, h⟩ hcall hstep
    exact h.step hcall hstep
  obtain ⟨level, h⟩ := hinv
  exact ⟨h.agree, fun call t hstep hcall => h.not_agree hcall hstep⟩

/-! ## After boot -/

/-- The directory the boot loader leaves, with the entries for physical memory and for the
kernel's image; the tables below are left empty. -/
def bootTables : Memory := fun a =>
  if a = 0x510000 + 8 * 256 then 0x511007
  else if a = 0x510000 + 8 * 511 then 0x516007
  else 0

def bootDirs : DirState := ⟨bootTables, [0x510000, 0x511000, 0x516000], []⟩

/-- The first process gets its directory at 16 MiB. -/
def firstProcess : DirState where
  mem := (bootTables.createPageDir (some 0x1000000)).1
  used := [0x1000000, 0x510000, 0x511000, 0x516000]
  live := [0x1000000]

theorem bootTables_walk {path : List (Fin 512)} {table : Nat}
    (hhead : ∀ i ∈ path.head?, 256 ≤ i.val)
    (hwalk : bootTables.walk kernelPageDirTablePos path = some table) :
    path = [] ∧ table = 0x510000 ∨ path.length = 1 ∧ (table = 0x511000 ∨ table = 0x516000) := by
  have hbelow {next : Nat} (hnext : 0x511000 ≤ next) (j : Fin 512) (path : List (Fin 512)) :
      bootTables.walk next (j :: path) = none := by
    rw [Memory.walk_cons, bootTables, if_neg (by omega), if_neg (by omega), entryLink_zero,
      Option.bind_none]
  cases path with
  | nil => exact Or.inl ⟨rfl, (Option.some.inj hwalk).symm⟩
  | cons i path =>
      have hi := hhead i rfl
      rw [Memory.walk_cons, Option.bind_eq_some_iff] at hwalk
      obtain ⟨next, hlink, hwalk⟩ := hwalk
      have hnext : next = 0x511000 ∨ next = 0x516000 := by
        unfold bootTables at hlink
        split at hlink
        · exact Or.inl (Option.some.inj hlink).symm
        · split at hlink
          · exact Or.inr (Option.some.inj hlink).symm
          · cases hlink
      cases path with
      | nil => exact Or.inr ⟨rfl, (Option.some.inj hwalk) ▸ hnext⟩
      | cons j path =>
          rw [hbelow (by omega)] at hwalk
          cases hwalk

theorem bootDirs_init : DirInit bootDirs := by
  refine ⟨rfl, fun level table _ htable => ?_, fun level level' table _ _ htable htable' => ?_⟩
  · obtain ⟨path, -, hhead, hwalk⟩ := htable
    rcases bootTables_walk hhead hwalk with ⟨-, rfl⟩ | ⟨-, rfl | rfl⟩
    · decide
    · decide
    · decide
  · obtain ⟨path, rfl, hhead, hwalk⟩ := htable
    obtain ⟨path', rfl, hhead', hwalk'⟩ := htable'
    have hone := bootTables_walk hhead hwalk
    have hone' := bootTables_walk hhead' hwalk'
    rcases hone with ⟨rfl, rfl⟩ | ⟨hlen, hor⟩
    · rcases hone' with ⟨rfl, -⟩ | ⟨-, h | h⟩
      · rfl
      · cases h
      · cases h
    · rcases hone' with ⟨-, rfl⟩ | ⟨hlen', -⟩
      · rcases hor with h | h
        · cases h
        · cases h
      · rw [hlen, hlen']

theorem bootDirs_create : DirStep bootDirs (.createPageDir (some 0x1000000)) firstProcess := by
  apply DirStep.createPageDir
  rintro t ⟨rfl⟩
  decide

theorem bootDirs_shares : bootDirs.SharesEntry (.createPageDir (some 0x1000000)) := trivial

theorem firstProcess_reachable : dirSystem.ReachableWhen DirState.SharesEntry firstProcess :=
  .step (.init bootDirs_init) bootDirs_shares bootDirs_create

/-- A controller whose registers are at 512 GiB is mapped while the process exists. -/
theorem firstProcess_mmio : ∃ t, DirStep firstProcess
      (.pageMapKernel 0x8000000000 0xffff808000000000 (some 0x1001000) (some 0x1002000)) t ∧
    ¬ firstProcess.SharesEntry
      (.pageMapKernel 0x8000000000 0xffff808000000000 (some 0x1001000) (some 0x1002000)) := by
  obtain ⟨mem, hmap⟩ := firstProcess.mem.exists_pageMap kernelPageDirTablePos 0x8000000000
    0xffff808000000000 0x1001000 0x1002000
  refine ⟨_, .pageMapKernel ⟨by decide, by decide⟩ (by decide) ⟨?_, ?_, ?_⟩ hmap, ?_⟩
  · rintro t ⟨rfl⟩
    decide
  · rintro t ⟨rfl⟩
    decide
  · rintro t ⟨rfl⟩
    decide
  · unfold DirState.SharesEntry
    decide

/-- The process sees the kernel's half as the kernel does, until the controller is mapped. -/
theorem firstProcess_agree : firstProcess.Agree ∧ ∃ t, DirStep firstProcess
    (.pageMapKernel 0x8000000000 0xffff808000000000 (some 0x1001000) (some 0x1002000)) t ∧
      ¬ t.Agree := by
  obtain ⟨t, hstep, hcall⟩ := firstProcess_mmio
  exact ⟨(dirSystem_agree firstProcess_reachable).1, t, hstep,
    (dirSystem_agree firstProcess_reachable).2 _ t hstep hcall⟩

/-- A reachable state in which a process misses a mapping of the kernel. -/
theorem firstProcess_misses : ∃ t, dirSystem.Reachable t ∧ ¬ t.Agree := by
  obtain ⟨t, hstep, hcall⟩ := firstProcess_mmio
  obtain ⟨level, h⟩ := DirState.Shared.init bootDirs_init
  obtain ⟨level', h'⟩ := h.step bootDirs_shares bootDirs_create
  exact ⟨t, .step (firstProcess_reachable.mono fun _ _ _ => trivial) trivial hstep,
    h'.not_agree hcall hstep⟩

end ClayFigure
