/-
# Reading the memory of another task

`kern_read_task_mem` of `kernel/service/kern_mem.c` translates the first address of the
range through the target's tables and copies from there on in physical memory. What the
target reads itself is translated byte by byte, so the two are the same exactly when the
pages of the range lie in consecutive frames; the result states this for every request.

The copy reads through `PHYS_TO_VIRT`. That the frames which the tables name lie in the direct map
is assumed: the boot loader maps the first 4 GiB.
-/

import ClayFigure.Task.PageDir

namespace ClayFigure

/-! ## The code -/

/-- The byte at a physical address; words are stored with the low byte first. -/
def Memory.byte (mem : Memory) (a : Nat) : Nat := (mem (a - a % 8) >>> (8 * (a % 8))) &&& 0xff

/-- The task table with the `page_dir` of each task that exists, and the memory. A kernel
task has no directory of its own, and its field is 0. -/
structure TaskMem where
  mem : Memory
  pageDir : Slot → Option Nat

/-- What a request leaves: the status, and the bytes stored in the buffer, each with the
physical address it comes from. -/
structure ReadResult where
  status : SyscallStatus
  copied : List (Nat × Nat)

/-- The bytes of `memcpy` from a physical address. -/
def Memory.memcpy (mem : Memory) (paddr size : Nat) : List (Nat × Nat) :=
  (List.range size).map fun k => (add64 paddr k, mem.byte (add64 paddr k))

/-- A message word cast to `pid_t`, a signed 32-bit number. -/
def toPid (word : Nat) : Int := (BitVec.ofNat 32 word).toInt

namespace TaskMem

/-- `pid_to_task`, as far as the directory goes; `none` is `NULL`. -/
def pidToTask (s : TaskMem) (pid : Int) : Option Nat :=
  if h : 0 ≤ pid ∧ pid < numTasks then s.pageDir ⟨pid.toNat, by omega⟩ else none

/-- `kern_read_task_mem` with the words of its message. `none`: the task is `NULL` and its
field `page_dir` is read all the same, so that the call does not return. -/
def kernReadTaskMem (s : TaskMem) (inPid inAddr inSize : Nat) : Option ReadResult :=
  (s.pidToTask (toPid inPid)).map fun pageDir =>
    let paddr := s.mem.toPhysicalAddress pageDir inAddr
    if paddr = 0 then ⟨.error, []⟩ else ⟨.success, s.mem.memcpy paddr inSize⟩

end TaskMem

/-! ## What the target reads -/

instance (a : Nat) : Decidable (Memory.Canonical a) := inferInstanceAs (Decidable (_ ∨ _))

/-- Where an address leads under a directory; an address that is not canonical or not mapped
leads nowhere. -/
def Memory.translate (mem : Memory) (dir a : Nat) : Option Nat :=
  if Memory.Canonical a then
    (mem.walk dir (Memory.indexPath a)).map fun page => add64 page (a % pgSize)
  else none

/-- The directory `page_table_activate` loads for a task. -/
def activeDir (pageDir : Nat) : Nat := if pageDir = 0 then kernelPageDirTablePos else pageDir

/-- Address `k` of a range; a range may pass the end of the address space. -/
abbrev rangeAddr (addr k : Nat) : Nat := add64 addr k

namespace TaskMem

variable (s : TaskMem) (inPid inAddr inSize : Nat)

/-- Byte `k` was copied from where the target reads it. -/
def CopiedAs (pageDir : Nat) (copied : List (Nat × Nat)) (k : Nat) : Prop :=
  ∃ paddr, s.mem.translate (activeDir pageDir) (rangeAddr inAddr k) = some paddr ∧
    copied[k]? = some (paddr, s.mem.byte paddr)

/-- The request succeeds and the buffer holds what the target reads in the range, or it fails
and the buffer is untouched; without a target it fails. -/
def ReadsTarget : Prop :=
  ∃ result, s.kernReadTaskMem inPid inAddr inSize = some result ∧
    (result.status ≠ .success ∧ result.copied = [] ∨
      result.status = .success ∧ ∃ pageDir, s.pidToTask (toPid inPid) = some pageDir ∧
        result.copied.length = inSize ∧
        ∀ k < inSize, s.CopiedAs inAddr pageDir result.copied k)

/-- The range is translated at all, and the first byte it has in each page lies behind the
first byte of the range by its distance in the range. -/
def FramesInRow (pageDir : Nat) : Prop :=
  ∀ k < inSize, k = 0 ∨ rangeAddr inAddr k % pgSize = 0 →
    s.mem.translate (activeDir pageDir) (rangeAddr inAddr k) =
      some (add64 (s.mem.toPhysicalAddress pageDir inAddr) k)

end TaskMem

/-! ## Pages and bytes -/

/-- Within a page the next byte follows in physical memory. -/
theorem Memory.translate_succ {mem : Memory} {dir a paddr : Nat} (hpage : (a + 1) % pgSize ≠ 0)
    (htranslate : mem.translate dir a = some paddr) :
    mem.translate dir (a + 1) = some (add64 paddr 1) := by
  unfold translate at htranslate
  split at htranslate
  · next hcanonical =>
      obtain ⟨page, hwalk, rfl⟩ := Option.map_eq_some_iff.mp htranslate
      have hcanonical' : Canonical (a + 1) := by
        unfold Canonical pgSize at *
        omega
      have hpath : indexPath (a + 1) = indexPath a := by
        rw [indexPath_eq_iff hcanonical' hcanonical]
        unfold pgSize at *
        omega
      have hoffset : (a + 1) % pgSize = a % pgSize + 1 := by
        unfold pgSize at *
        omega
      have hadd : add64 page (a % pgSize + 1) = add64 (add64 page (a % pgSize)) 1 := by
        unfold add64 wordSize
        omega
      rw [translate, if_pos hcanonical', hpath, hwalk, hoffset, Option.map_some, hadd]
  · cases htranslate

theorem rangeAddr_succ {addr k : Nat} (hpage : rangeAddr addr (k + 1) % pgSize ≠ 0) :
    rangeAddr addr (k + 1) = rangeAddr addr k + 1 := by
  unfold rangeAddr add64 pgSize wordSize at *
  omega

namespace TaskMem

variable {s : TaskMem} {inPid inAddr inSize pageDir : Nat}

/-- Frames in a row carry every byte of the range. -/
theorem FramesInRow.translate (h : s.FramesInRow inAddr inSize pageDir) {k : Nat}
    (hk : k < inSize) :
    s.mem.translate (activeDir pageDir) (rangeAddr inAddr k) =
      some (add64 (s.mem.toPhysicalAddress pageDir inAddr) k) := by
  induction k with
  | zero => exact h 0 hk (Or.inl rfl)
  | succ k ih =>
      by_cases hpage : rangeAddr inAddr (k + 1) % pgSize = 0
      · exact h (k + 1) hk (Or.inr hpage)
      · have hadd : add64 (s.mem.toPhysicalAddress pageDir inAddr) (k + 1) =
            add64 (add64 (s.mem.toPhysicalAddress pageDir inAddr) k) 1 := by
          unfold add64 wordSize
          omega
        have hsucc := rangeAddr_succ hpage
        rw [hsucc] at hpage
        rw [hsucc, hadd]
        exact Memory.translate_succ hpage (ih (by omega))

theorem getElem?_memcpy (mem : Memory) (paddr : Nat) {size k : Nat} (hk : k < size) :
    (mem.memcpy paddr size)[k]? = some (add64 paddr k, mem.byte (add64 paddr k)) := by
  rw [Memory.memcpy, List.getElem?_map, List.getElem?_range hk, Option.map_some]

/-- Byte `k` comes from the address behind the first one. -/
theorem copiedAs_memcpy {paddr k : Nat} (hk : k < inSize) :
    s.CopiedAs inAddr pageDir (s.mem.memcpy paddr inSize) k ↔
      s.mem.translate (activeDir pageDir) (rangeAddr inAddr k) = some (add64 paddr k) := by
  rw [CopiedAs, getElem?_memcpy s.mem paddr hk]
  constructor
  · rintro ⟨p, htranslate, hbyte⟩
    rw [htranslate, (Prod.mk.inj (Option.some.inj hbyte)).1]
  · exact fun htranslate => ⟨_, htranslate, rfl⟩

/-- The request does what it promises exactly when the pid names a task and the first
address has no translation, so that it fails, or the frames of the range lie in a row. -/
theorem readsTarget_iff (s : TaskMem) (inPid inAddr inSize : Nat) :
    s.ReadsTarget inPid inAddr inSize ↔ ∃ pageDir, s.pidToTask (toPid inPid) = some pageDir ∧
      (s.mem.toPhysicalAddress pageDir inAddr = 0 ∨ s.FramesInRow inAddr inSize pageDir) := by
  constructor
  · rintro ⟨result, hresult, hread⟩
    obtain ⟨pageDir, htask, rfl⟩ := Option.map_eq_some_iff.mp hresult
    refine ⟨pageDir, htask, or_iff_not_imp_left.mpr fun hpaddr => ?_⟩
    simp only [if_neg hpaddr] at hread
    rcases hread with ⟨hfail, -⟩ | ⟨-, pageDir', htask', -, hcopied⟩
    · exact absurd rfl hfail
    · obtain rfl := Option.some.inj (htask.symm.trans htask')
      exact fun k hk _ => (copiedAs_memcpy hk).mp (hcopied k hk)
  · rintro ⟨pageDir, htask, hcase⟩
    refine ⟨_, by rw [kernReadTaskMem, htask, Option.map_some], ?_⟩
    by_cases hpaddr : s.mem.toPhysicalAddress pageDir inAddr = 0
    · exact Or.inl (by simp [hpaddr])
    · have hrow := hcase.resolve_left hpaddr
      simp only [if_neg hpaddr]
      refine Or.inr ⟨trivial, pageDir, htask, ?_, fun k hk => ?_⟩
      · rw [Memory.memcpy, List.length_map, List.length_range]
      · exact (copiedAs_memcpy hk).mpr (hrow.translate hk)

/-! ## A target with two pages -/

/-- Task 7 has two neighbouring pages in frames that are not neighbours, and no other task
exists. -/
def twoPages : TaskMem where
  mem := fun a =>
    if a = 0x1000000 then 0x1001007
    else if a = 0x1001000 then 0x1002007
    else if a = 0x1002000 + 8 * 2 then 0x3000087
    else if a = 0x1002000 + 8 * 3 then 0x5000087
    else 0
  pageDir := fun p => if p.val = 7 then some 0x1000000 else none

/-- A request that crosses from one page into the other copies bytes of a frame the target
has not mapped, and a pid of no task is not answered at all. -/
theorem not_readsTarget_twoPages :
    ¬ twoPages.ReadsTarget 7 0x5ffff8 16 ∧ ¬ twoPages.ReadsTarget 5 0x400000 16 := by
  constructor
  · rintro ⟨result, hresult, hread⟩
    obtain ⟨pageDir, htask, rfl⟩ := Option.map_eq_some_iff.mp hresult
    obtain rfl : 0x1000000 = pageDir := Option.some.inj htask
    have hpaddr : twoPages.mem.toPhysicalAddress 0x1000000 0x5ffff8 = 0x31ffff8 := by decide
    simp only [hpaddr] at hread
    rcases hread with ⟨hfail, -⟩ | ⟨-, pageDir, htask', -, hcopied⟩
    · exact hfail rfl
    · obtain rfl : 0x1000000 = pageDir := Option.some.inj htask'
      have hbyte := (copiedAs_memcpy (by decide)).mp (hcopied 8 (by decide))
      have htranslate : twoPages.mem.translate (activeDir 0x1000000) (rangeAddr 0x5ffff8 8) =
        some 0x5000000 := by decide
      rw [htranslate] at hbyte
      exact absurd (Option.some.inj hbyte) (by decide)
  · rintro ⟨result, hresult, -⟩
    have hnull : twoPages.kernReadTaskMem 5 0x400000 16 = none := rfl
    rw [hnull] at hresult
    cases hresult

end TaskMem

end ClayFigure
