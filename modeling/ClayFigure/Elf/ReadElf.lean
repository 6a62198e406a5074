/-
# Position-independent images

`check_elf`, `elf_pt_load_addr`, `elf_load_size` and `elf_load_segment` of `elf/elf.c`. The
file lies in the memory that the segments are loaded to, so the headers are read out of memory
again in every pass of the loop, whatever the passes before have stored. The load stays inside
of its window exactly if every segment does, and a segment in a window apart from the file finds
the headers as they were.
-/

import Mathlib.Order.Bounds.Basic
import ClayFigure.Bootloader.Elf
import ClayFigure.Lib.Memory
import ClayFigure.Math.LittleEndian

namespace ClayFigure

open Math (ofLE ofLE_lt)

/-! ## The code -/

/-- `ET_DYN`. -/
abbrev etDyn : Nat := 3

namespace AddrSpace

/-- A field of a structure, `width` bytes with the lowest first. -/
def field (mem : AddrSpace) (a width : Nat) : Nat :=
  ofLE ((List.range width).map fun k => mem (add64 a k))

/-- `e_type` of `Elf64_Ehdr`. -/
def eType (mem : AddrSpace) (ehdr : Nat) : Nat := mem.field (add64 ehdr 16) 2

/-- `e_version`. -/
def eVersion (mem : AddrSpace) (ehdr : Nat) : Nat := mem.field (add64 ehdr 20) 4

/-- `e_phoff`. -/
def ePhoff (mem : AddrSpace) (ehdr : Nat) : Nat := mem.field (add64 ehdr 32) 8

/-- `e_phnum`. -/
def ePhnum (mem : AddrSpace) (ehdr : Nat) : Nat := mem.field (add64 ehdr 56) 2

/-- `phdr[i]`. -/
def phdr (mem : AddrSpace) (table i : Nat) : Elf64Phdr where
  pType := mem.field (add64 table (56 * i)) 4
  pOffset := mem.field (add64 table (56 * i + 8)) 8
  pVaddr := mem.field (add64 table (56 * i + 16)) 8
  pFilesz := mem.field (add64 table (56 * i + 32)) 8
  pMemsz := mem.field (add64 table (56 * i + 40)) 8

/-- `phdr`, the address of the program headers. -/
def phdrTable (mem : AddrSpace) (data : Nat) : Nat := add64 data (mem.ePhoff data)

/-- The program headers. -/
def phdrs (mem : AddrSpace) (data : Nat) : List Elf64Phdr :=
  (List.range (mem.ePhnum data)).map (mem.phdr (mem.phdrTable data))

/-- `memcpy` out of a string literal. -/
def copyLiteral (mem : AddrSpace) (dst : Nat) : List Byte → AddrSpace
  | [] => mem
  | b :: bytes => copyLiteral (fun x => if x = dst then b else mem x) (add64 dst 1) bytes

end AddrSpace

/-- `ELFMAG`. -/
abbrev elfMagBytes : List Byte := elfMag.map UInt8.ofNat

/-- `check_elf`; the first check copies the magic into the file and tests the pointer that
`memcpy` returns. -/
def checkElf (mem : AddrSpace) (data : Nat) : Bool × AddrSpace :=
  let mem := mem.copyLiteral data elfMagBytes
  if data = 0 then (false, mem)
  else if mem.eVersion data ≠ evCurrent then (false, mem)
  else if mem.eType data ≠ etDyn then (false, mem)
  else (true, mem)

/-- The body of the loop of `elf_pt_load_addr`. -/
def ptLoadExtend (extent : Nat × Nat) (phdr : Elf64Phdr) : Nat × Nat :=
  let pVaddrEnd := add64 phdr.pVaddr phdr.pMemsz
  if phdr.pType = ptLoad then
    (if extent.1 > phdr.pVaddr then phdr.pVaddr else extent.1,
      if extent.2 < pVaddrEnd then pVaddrEnd else extent.2)
  else extent

/-- `elf_pt_load_addr`: `addr_lo` and `addr_hi`. -/
def elfPtLoadAddr (mem : AddrSpace) (data : Nat) : Nat × Nat :=
  (mem.phdrs data).foldl ptLoadExtend (0xffffffffffffffff, 0)

/-- `elf_load_size`; a failed check is only logged. -/
def elfLoadSize (mem : AddrSpace) (data : Nat) : Nat × AddrSpace :=
  let mem := (checkElf mem data).2
  (sub64 (elfPtLoadAddr mem data).2 (elfPtLoadAddr mem data).1, mem)

/-- `relocate_addr`. -/
def relocateAddr (addr addrLo : Nat) (phdr : Elf64Phdr) : Nat :=
  add64 addr (sub64 phdr.pVaddr addrLo)

/-- The body of the loop of `elf_load_segment`. -/
def loadPhdr (data addr addrLo : Nat) (s : Store) (phdr : Elf64Phdr) : Store :=
  if phdr.pType = ptLoad then
    let dst := relocateAddr addr addrLo phdr
    (s.memset dst 0 phdr.pMemsz).memcpy dst (add64 data phdr.pOffset) phdr.pFilesz
  else s

/-- The loop of `elf_load_segment`. `i` is a 16-bit number below `e_phnum`, so `0x10000` passes
are enough. -/
def loadLoop (data table addr addrLo : Nat) : Nat → Nat → Store → Store
  | 0, _, s => s
  | fuel + 1, i, s =>
      if i < s.mem.ePhnum data then
        loadLoop data table addr addrLo fuel (i + 1)
          (loadPhdr data addr addrLo s (s.mem.phdr table i))
      else s

/-- `elf_load_segment`; the log holds what the loop stores to. -/
def elfLoadSegment (mem : AddrSpace) (data addr : Nat) : Store :=
  let mem := (checkElf mem data).2
  loadLoop data (mem.phdrTable data) addr (elfPtLoadAddr mem data).1 0x10000 0 ⟨mem, []⟩

/-! ## Files in memory -/

/-- A file in memory: `data` and `size` of `ramfs_file_t`. -/
structure MemFile where
  data : Nat
  size : Nat
  data_ne_zero : data ≠ 0
  data_lt : data < wordSize
  end_le : data + size ≤ wordSize

namespace MemFile

variable {f : MemFile} {mem mem' : AddrSpace} {a : Nat}

/-- The bytes of the file: its own, with the header and the program headers that the functions
read. -/
def Holds (f : MemFile) (mem : AddrSpace) (a : Nat) : Prop :=
  sub64 a f.data < f.size ∨ sub64 a f.data < 64 ∨
    sub64 a (mem.phdrTable f.data) < 56 * mem.ePhnum f.data

/-- The bytes of the file are as they were. -/
def Intact (f : MemFile) (mem mem' : AddrSpace) : Prop :=
  ∀ a < wordSize, f.Holds mem a → mem' a = mem a

/-- The file starts with the magic. -/
def HasMagic (f : MemFile) (mem : AddrSpace) : Prop :=
  ∀ k (h : k < elfMagBytes.length), mem (add64 f.data k) = elfMagBytes[k]

instance (f : MemFile) (mem : AddrSpace) : Decidable (f.HasMagic mem) :=
  inferInstanceAs (Decidable (∀ k (h : k < elfMagBytes.length),
    mem (add64 f.data k) = elfMagBytes[k]))

/-- A position-independent image, by the first 24 bytes of the file. -/
structure IsElf (f : MemFile) (mem : AddrSpace) : Prop where
  size : 24 ≤ f.size
  magic : f.HasMagic mem
  version : mem.eVersion f.data = evCurrent
  type : mem.eType f.data = etDyn

/-- The loadable segments. -/
def loads (f : MemFile) (mem : AddrSpace) : List Elf64Phdr :=
  (mem.phdrs f.data).filter (·.pType = ptLoad)

/-- The window of a load. -/
def InWindow (f : MemFile) (mem : AddrSpace) (addr a : Nat) : Prop :=
  sub64 a addr < (elfLoadSize mem f.data).1

end MemFile

/-! ## Headers in memory -/

namespace AddrSpace

variable {mem mem' : AddrSpace}

theorem field_congr {a width : Nat} (h : ∀ k < width, mem' (add64 a k) = mem (add64 a k)) :
    mem'.field a width = mem.field a width := by
  have hbytes : ((List.range width).map fun k => mem' (add64 a k)) =
      (List.range width).map fun k => mem (add64 a k) :=
    List.map_congr_left fun k hk => h k (List.mem_range.mp hk)
  rw [field, field, hbytes]

theorem field_lt (mem : AddrSpace) (a width : Nat) : mem.field a width < 256 ^ width := by
  have h := ofLE_lt ((List.range width).map fun k => mem (add64 a k))
  rwa [List.length_map, List.length_range] at h

theorem ePhnum_lt (mem : AddrSpace) (ehdr : Nat) : mem.ePhnum ehdr < 0x10000 :=
  mem.field_lt _ 2

theorem pVaddr_lt (mem : AddrSpace) (table i : Nat) : (mem.phdr table i).pVaddr < wordSize :=
  mem.field_lt _ 8

theorem pMemsz_lt (mem : AddrSpace) (table i : Nat) : (mem.phdr table i).pMemsz < wordSize :=
  mem.field_lt _ 8

theorem mem_phdrs {data : Nat} {p : Elf64Phdr} :
    p ∈ mem.phdrs data ↔
      ∃ i < mem.ePhnum data, mem.phdr (mem.phdrTable data) i = p := by
  simp only [phdrs, List.mem_map, List.mem_range]

/-- A field inside of a structure that is the same in two memories. -/
theorem field_eq_of_range {a off width size : Nat} (ha : a < wordSize) (hsize : size ≤ wordSize)
    (hfit : off + width ≤ size) (h : ∀ x < wordSize, sub64 x a < size → mem' x = mem x) :
    mem'.field (add64 a off) width = mem.field (add64 a off) width := by
  apply field_congr
  intro k hk
  rw [add64_add64]
  apply h _ (add64_lt a _)
  rw [sub64_add64 ha (by omega)]
  omega

/-- A program header that is the same in two memories. -/
theorem phdr_eq_of_range {table i n : Nat} (htable : table < wordSize) (hn : n < 0x10000)
    (hi : i < n) (h : ∀ x < wordSize, sub64 x table < 56 * n → mem' x = mem x) :
    mem'.phdr table i = mem.phdr table i := by
  have hsize : 56 * n ≤ wordSize := by
    unfold wordSize
    omega
  have hfield : ∀ off width, off + width ≤ 56 →
      mem'.field (add64 table (56 * i + off)) width =
        mem.field (add64 table (56 * i + off)) width := by
    intro off width hfit
    exact field_eq_of_range htable hsize (by omega) h
  have htype := hfield 0 4 (by decide)
  have hoffset := hfield 8 8 (by decide)
  have hvaddr := hfield 16 8 (by decide)
  have hfilesz := hfield 32 8 (by decide)
  have hmemsz := hfield 40 8 (by decide)
  rw [Nat.add_zero] at htype
  simp only [phdr, htype, hoffset, hvaddr, hfilesz, hmemsz]

theorem copyLiteral_of_ne (bytes : List Byte) {a dst : Nat} (hdst : dst < wordSize)
    (hout : ∀ k < bytes.length, a ≠ add64 dst k) : mem.copyLiteral dst bytes a = mem a := by
  induction bytes generalizing mem dst with
  | nil => rfl
  | cons b bytes ih =>
      have hfirst : a ≠ dst := by
        have h := hout 0 (Nat.succ_pos _)
        rwa [add64_of_lt (b := 0) hdst] at h
      rw [copyLiteral, ih (add64_lt dst 1), if_neg hfirst]
      intro k hk
      rw [← add64_succ]
      exact hout (k + 1) (Nat.succ_lt_succ hk)

theorem copyLiteral_add64 (bytes : List Byte) {dst : Nat} (hdst : dst < wordSize)
    (hsize : bytes.length ≤ wordSize) {k : Nat} (hk : k < bytes.length) :
    mem.copyLiteral dst bytes (add64 dst k) = bytes[k] := by
  induction bytes generalizing mem dst k with
  | nil => exact absurd hk (Nat.not_lt_zero k)
  | cons b bytes ih =>
      rw [List.length_cons] at hk hsize
      rw [copyLiteral]
      cases k with
      | zero =>
          have hback : ∀ k < bytes.length, dst ≠ add64 (add64 dst 1) k := by
            intro k hk heq
            rw [← add64_succ] at heq
            have hzero := sub64_add64 hdst (Nat.lt_of_lt_of_le (Nat.succ_lt_succ hk) hsize)
            rw [← heq, sub64_self] at hzero
            exact Nat.succ_ne_zero k hzero.symm
          rw [add64_of_lt (b := 0) hdst, Nat.add_zero,
            copyLiteral_of_ne bytes (add64_lt dst 1) hback, if_pos rfl, List.getElem_cons_zero]
      | succ k =>
          rw [add64_succ dst k, ih (add64_lt dst 1) (Nat.le_of_succ_le hsize)
            (Nat.lt_of_succ_lt_succ hk), List.getElem_cons_succ]

end AddrSpace

namespace MemFile

variable {f : MemFile} {mem mem' : AddrSpace}

theorem Intact.ePhnum (h : f.Intact mem mem') : mem'.ePhnum f.data = mem.ePhnum f.data :=
  AddrSpace.field_eq_of_range f.data_lt (show 64 ≤ wordSize by decide) (by decide)
    fun x hx hin => h x hx (Or.inr (Or.inl hin))

theorem Intact.phdr (h : f.Intact mem mem') {i : Nat} (hi : i < mem.ePhnum f.data) :
    mem'.phdr (mem.phdrTable f.data) i = mem.phdr (mem.phdrTable f.data) i :=
  AddrSpace.phdr_eq_of_range (add64_lt _ _) (mem.ePhnum_lt _) hi
    fun x hx hin => h x hx (Or.inr (Or.inr hin))

theorem checkElf_snd (mem : AddrSpace) (data : Nat) :
    (checkElf mem data).2 = mem.copyLiteral data elfMagBytes := by
  unfold checkElf
  dsimp only
  by_cases hdata : data = 0
  · rw [if_pos hdata]
  · rw [if_neg hdata]
    generalize mem.copyLiteral data elfMagBytes = mem'
    by_cases hversion : mem'.eVersion data ≠ evCurrent
    · rw [if_pos hversion]
    · rw [if_neg hversion]
      by_cases htype : mem'.eType data ≠ etDyn
      · rw [if_pos htype]
      · rw [if_neg htype]

/-- The check leaves the magic in the file. -/
theorem checkElf_hasMagic (f : MemFile) (mem : AddrSpace) :
    f.HasMagic (checkElf mem f.data).2 := by
  intro k hk
  rw [checkElf_snd]
  exact AddrSpace.copyLiteral_add64 elfMagBytes f.data_lt (by decide) hk

/-- On a file with the magic the check changes nothing. -/
theorem HasMagic.checkElf_eq (h : f.HasMagic mem) : (checkElf mem f.data).2 = mem := by
  funext a
  by_cases hin : ∃ k < elfMagBytes.length, a = add64 f.data k
  · obtain ⟨k, hk, rfl⟩ := hin
    rw [checkElf_hasMagic f mem k hk, h k hk]
  · rw [checkElf_snd]
    exact AddrSpace.copyLiteral_of_ne elfMagBytes f.data_lt fun k hk heq => hin ⟨k, hk, heq⟩

theorem checkElf_fst (f : MemFile) (mem : AddrSpace) :
    (checkElf mem f.data).1 = true ↔
      mem.eVersion f.data = evCurrent ∧ mem.eType f.data = etDyn := by
  have hfield : ∀ off width, 4 ≤ off → off + width ≤ 64 →
      (mem.copyLiteral f.data elfMagBytes).field (add64 f.data off) width =
        mem.field (add64 f.data off) width := by
    intro off width hoff hfit
    apply AddrSpace.field_congr
    intro k hk
    have hword : 64 ≤ wordSize := by decide
    rw [add64_add64]
    apply AddrSpace.copyLiteral_of_ne elfMagBytes f.data_lt
    intro l hl heq
    have hdist := sub64_add64 f.data_lt (by omega : off + k < wordSize)
    have hl4 : l < 4 := hl
    rw [heq, sub64_add64 f.data_lt (by omega)] at hdist
    omega
  have hversion : (mem.copyLiteral f.data elfMagBytes).eVersion f.data = mem.eVersion f.data :=
    hfield 20 4 (by decide) (by decide)
  have htype : (mem.copyLiteral f.data elfMagBytes).eType f.data = mem.eType f.data :=
    hfield 16 2 (by decide) (by decide)
  unfold checkElf
  dsimp only
  rw [if_neg f.data_ne_zero, hversion, htype]
  generalize mem.eVersion f.data = v
  generalize mem.eType f.data = t
  by_cases hv : v = evCurrent
  · rw [if_neg (not_not.mpr hv)]
    by_cases ht : t = etDyn
    · rw [if_neg (not_not.mpr ht)]
      exact ⟨fun _ => ⟨hv, ht⟩, fun _ => rfl⟩
    · rw [if_pos ht]
      exact ⟨fun h => Bool.noConfusion h, fun h => absurd h.2 ht⟩
  · rw [if_pos hv]
    exact ⟨fun h => Bool.noConfusion h, fun h => absurd h.1 hv⟩

end MemFile

/-! ## The extent of the segments -/

/-- What the scan makes of an extent: it takes in every loadable segment, and its ends are
those it had or ends of segments. -/
structure Extends (ps : List Elf64Phdr) (e r : Nat × Nat) : Prop where
  lo_le : r.1 ≤ e.1
  le_hi : e.2 ≤ r.2
  covers : ∀ p ∈ ps, p.pType = ptLoad →
    r.1 ≤ p.pVaddr ∧ add64 p.pVaddr p.pMemsz ≤ r.2
  lo_mem : r.1 = e.1 ∨ ∃ p ∈ ps, p.pType = ptLoad ∧ p.pVaddr = r.1
  hi_mem : r.2 = e.2 ∨ ∃ p ∈ ps, p.pType = ptLoad ∧ add64 p.pVaddr p.pMemsz = r.2

theorem ptLoadExtend_of_load {p : Elf64Phdr} (hp : p.pType = ptLoad) (e : Nat × Nat) :
    ptLoadExtend e p = (min e.1 p.pVaddr, max e.2 (add64 p.pVaddr p.pMemsz)) := by
  unfold ptLoadExtend
  generalize add64 p.pVaddr p.pMemsz = last
  rw [if_pos hp]
  congr 1
  · by_cases hlo : e.1 > p.pVaddr
    · rw [if_pos hlo, min_eq_right hlo.le]
    · rw [if_neg hlo, min_eq_left (not_lt.mp hlo)]
  · by_cases hhi : e.2 < last
    · rw [if_pos hhi, max_eq_right hhi.le]
    · rw [if_neg hhi, max_eq_left (not_lt.mp hhi)]

theorem extends_foldl (ps : List Elf64Phdr) (e : Nat × Nat) :
    Extends ps e (ps.foldl ptLoadExtend e) := by
  induction ps generalizing e with
  | nil => exact ⟨le_rfl, le_rfl, by simp, Or.inl rfl, Or.inl rfl⟩
  | cons p ps ih =>
      rw [List.foldl_cons]
      have hrest := ih (ptLoadExtend e p)
      generalize ps.foldl ptLoadExtend (ptLoadExtend e p) = r at hrest
      by_cases hp : p.pType = ptLoad
      · rw [ptLoadExtend_of_load hp] at hrest
        refine ⟨hrest.lo_le.trans (min_le_left _ _), (le_max_left _ _).trans hrest.le_hi,
          ?_, ?_, ?_⟩
        · intro q hq hload
          rcases List.mem_cons.mp hq with rfl | hq
          · exact ⟨hrest.lo_le.trans (min_le_right _ _),
              (le_max_right _ _).trans hrest.le_hi⟩
          · exact hrest.covers q hq hload
        · rcases hrest.lo_mem with heq | ⟨q, hq, h⟩
          · rcases le_total e.1 p.pVaddr with hle | hle
            · exact Or.inl (heq.trans (min_eq_left hle))
            · exact Or.inr ⟨p, List.mem_cons_self, hp, (heq.trans (min_eq_right hle)).symm⟩
          · exact Or.inr ⟨q, List.mem_cons_of_mem p hq, h⟩
        · rcases hrest.hi_mem with heq | ⟨q, hq, h⟩
          · rcases le_total (add64 p.pVaddr p.pMemsz) e.2 with hle | hle
            · exact Or.inl (heq.trans (max_eq_left hle))
            · exact Or.inr ⟨p, List.mem_cons_self, hp, (heq.trans (max_eq_right hle)).symm⟩
          · exact Or.inr ⟨q, List.mem_cons_of_mem p hq, h⟩
      · rw [show ptLoadExtend e p = e from if_neg hp] at hrest
        refine ⟨hrest.lo_le, hrest.le_hi, ?_, ?_, ?_⟩
        · intro q hq hload
          rcases List.mem_cons.mp hq with rfl | hq
          · exact absurd hload hp
          · exact hrest.covers q hq hload
        · exact hrest.lo_mem.imp_right fun ⟨q, hq, h⟩ => ⟨q, List.mem_cons_of_mem p hq, h⟩
        · exact hrest.hi_mem.imp_right fun ⟨q, hq, h⟩ => ⟨q, List.mem_cons_of_mem p hq, h⟩

namespace MemFile

variable {f : MemFile} {mem : AddrSpace}

/-- The addresses the segments start at. -/
def starts (f : MemFile) (mem : AddrSpace) : Set Nat := {x | ∃ p ∈ f.loads mem, p.pVaddr = x}

/-- The addresses behind the segments, in 64 bits. -/
def ends (f : MemFile) (mem : AddrSpace) : Set Nat :=
  {x | ∃ p ∈ f.loads mem, add64 p.pVaddr p.pMemsz = x}

theorem mem_loads {p : Elf64Phdr} :
    p ∈ f.loads mem ↔ p ∈ mem.phdrs f.data ∧ p.pType = ptLoad := by
  simp only [loads, List.mem_filter, decide_eq_true_eq]

theorem isLeast_lo (hload : ∃ p, p ∈ f.loads mem) :
    IsLeast (f.starts mem) (elfPtLoadAddr mem f.data).1 := by
  obtain ⟨p, hp⟩ := hload
  have hext := extends_foldl (mem.phdrs f.data) (0xffffffffffffffff, 0)
  have hcovers : ∀ q ∈ f.loads mem, (elfPtLoadAddr mem f.data).1 ≤ q.pVaddr := fun q hq =>
    (hext.covers q (mem_loads.mp hq).1 (mem_loads.mp hq).2).1
  constructor
  · rcases hext.lo_mem with heq | ⟨q, hq, hload, heq⟩
    · -- no start lies below the largest word, so every start is the largest word
      refine ⟨p, hp, ?_⟩
      obtain ⟨i, -, rfl⟩ := AddrSpace.mem_phdrs.mp (mem_loads.mp hp).1
      have hlt := mem.pVaddr_lt (mem.phdrTable f.data) i
      have hle := hcovers _ hp
      unfold wordSize at hlt
      exact le_antisymm ((Nat.le_of_lt_succ hlt).trans heq.ge) hle
    · exact ⟨q, mem_loads.mpr ⟨hq, hload⟩, heq⟩
  · rintro x ⟨q, hq, rfl⟩
    exact hcovers q hq

theorem isGreatest_hi (hload : ∃ p, p ∈ f.loads mem) :
    IsGreatest (f.ends mem) (elfPtLoadAddr mem f.data).2 := by
  obtain ⟨p, hp⟩ := hload
  have hext := extends_foldl (mem.phdrs f.data) (0xffffffffffffffff, 0)
  have hcovers : ∀ q ∈ f.loads mem,
      add64 q.pVaddr q.pMemsz ≤ (elfPtLoadAddr mem f.data).2 := fun q hq =>
    (hext.covers q (mem_loads.mp hq).1 (mem_loads.mp hq).2).2
  constructor
  · rcases hext.hi_mem with heq | ⟨q, hq, hload, heq⟩
    · exact ⟨p, hp, le_antisymm (hcovers p hp) (heq.le.trans (Nat.zero_le _))⟩
    · exact ⟨q, mem_loads.mpr ⟨hq, hload⟩, heq⟩
  · rintro x ⟨q, hq, rfl⟩
    exact hcovers q hq

/-- The distance of a segment from the lowest one. -/
theorem sub64_lo {p : Elf64Phdr} (hp : p ∈ f.loads mem) {lo : Nat}
    (hlo : IsLeast (f.starts mem) lo) : sub64 p.pVaddr lo = p.pVaddr - lo := by
  obtain ⟨i, -, rfl⟩ := AddrSpace.mem_phdrs.mp (mem_loads.mp hp).1
  exact sub64_of_le (hlo.2 ⟨_, hp, rfl⟩) (mem.pVaddr_lt _ i)

end MemFile

/-! ## One segment -/

/-- Where a segment is loaded to, so far as its bytes go in the file or in memory. -/
def PlacedAt (addr addrLo : Nat) (p : Elf64Phdr) (a : Nat) : Prop :=
  sub64 a (relocateAddr addr addrLo p) < max p.pMemsz p.pFilesz

theorem relocateAddr_lt (addr addrLo : Nat) (p : Elf64Phdr) :
    relocateAddr addr addrLo p < wordSize :=
  add64_lt _ _

/-- A segment is loaded to addresses of a window only. -/
def StaysIn (addr addrLo : Nat) (w : Nat → Prop) (p : Elf64Phdr) : Prop :=
  p.pType = ptLoad → ∀ a < wordSize, PlacedAt addr addrLo p a → w a

section Segments

variable {data addr addrLo : Nat} {s : Store} {p : Elf64Phdr}

theorem loadPhdr_of_load (hp : p.pType = ptLoad) :
    loadPhdr data addr addrLo s p =
      (s.memset (relocateAddr addr addrLo p) 0 p.pMemsz).memcpy (relocateAddr addr addrLo p)
        (add64 data p.pOffset) p.pFilesz :=
  if_pos hp

theorem loadPhdr_of_not_load (hp : p.pType ≠ ptLoad) : loadPhdr data addr addrLo s p = s :=
  if_neg hp

theorem loadPhdr_stored {a : Nat} :
    a ∈ (loadPhdr data addr addrLo s p).stored ↔
      (p.pType = ptLoad ∧ a < wordSize ∧ PlacedAt addr addrLo p a) ∨ a ∈ s.stored := by
  by_cases hp : p.pType = ptLoad
  · rw [loadPhdr_of_load hp, Store.memcpy_stored _ _ (relocateAddr_lt _ _ _),
      Store.memset_stored _ _ _ (relocateAddr_lt _ _ _), PlacedAt, lt_max_iff]
    tauto
  · rw [loadPhdr_of_not_load hp]
    tauto

/-- A segment leaves what is outside of its place. -/
theorem loadPhdr_mem_of_not_placed {a : Nat} (ha : a < wordSize)
    (hout : p.pType = ptLoad → ¬PlacedAt addr addrLo p a) :
    (loadPhdr data addr addrLo s p).mem a = s.mem a := by
  by_cases hp : p.pType = ptLoad
  · have hboth := hout hp
    rw [PlacedAt, lt_max_iff, not_or] at hboth
    rw [loadPhdr_of_load hp, Store.memcpy_mem_of_not_lt _ ha (relocateAddr_lt _ _ _) hboth.2,
      Store.memset_mem _ _ _ ha (relocateAddr_lt _ _ _), if_neg hboth.1]
  · rw [loadPhdr_of_not_load hp]

theorem mem_foldl_stored (ps : List Elf64Phdr) {a : Nat} :
    a ∈ (ps.foldl (loadPhdr data addr addrLo) s).stored ↔
      (∃ p ∈ ps, p.pType = ptLoad ∧ a < wordSize ∧ PlacedAt addr addrLo p a) ∨
        a ∈ s.stored := by
  induction ps generalizing s with
  | nil => simp only [List.foldl_nil, List.not_mem_nil, false_and, exists_false, false_or]
  | cons p ps ih =>
      rw [List.foldl_cons, ih, loadPhdr_stored]
      simp only [List.mem_cons, exists_eq_or_imp]
      rw [or_left_comm, or_assoc]

/-- Segments leave what is outside of all their places. -/
theorem foldl_mem_of_not_placed (ps : List Elf64Phdr) {a : Nat} (ha : a < wordSize)
    (hout : ∀ p ∈ ps, p.pType = ptLoad → ¬PlacedAt addr addrLo p a) :
    (ps.foldl (loadPhdr data addr addrLo) s).mem a = s.mem a := by
  induction ps generalizing s with
  | nil => rfl
  | cons p ps ih =>
      rw [List.foldl_cons, ih fun q hq => hout q (List.mem_cons_of_mem p hq),
        loadPhdr_mem_of_not_placed ha (hout p List.mem_cons_self)]

theorem mem_loadLoop_stored {table fuel i a : Nat} (ha : a ∈ s.stored) :
    a ∈ (loadLoop data table addr addrLo fuel i s).stored := by
  induction fuel generalizing i s with
  | zero => exact ha
  | succ fuel ih =>
      rw [loadLoop]
      generalize s.mem.ePhnum data = n
      by_cases hi : i < n
      · rw [if_pos hi]
        exact ih (loadPhdr_stored.mpr (Or.inr ha))
      · rwa [if_neg hi]

end Segments

/-! ## The loop -/

namespace MemFile

section Window

variable {f : MemFile} {mem : AddrSpace} {w : Nat → Prop} {addr addrLo : Nat} {s : Store}

/-- A segment that stays in a window apart from the file leaves the headers. -/
theorem Intact.loadPhdr (hapart : ∀ a < wordSize, f.Holds mem a → ¬w a)
    (h : f.Intact mem s.mem) {p : Elf64Phdr} (hin : StaysIn addr addrLo w p) :
    f.Intact mem (ClayFigure.loadPhdr f.data addr addrLo s p).mem := by
  intro a ha hfile
  rw [loadPhdr_mem_of_not_placed ha fun hp hplaced => hapart a ha hfile (hin hp a ha hplaced)]
  exact h a ha hfile

theorem drop_phdrs {i : Nat} (hi : i < mem.ePhnum f.data) :
    (mem.phdrs f.data).drop i =
      mem.phdr (mem.phdrTable f.data) i :: (mem.phdrs f.data).drop (i + 1) := by
  have hlength : i < (mem.phdrs f.data).length := by
    rwa [AddrSpace.phdrs, List.length_map, List.length_range]
  rw [List.drop_eq_getElem_cons hlength]
  congr 1
  simp only [AddrSpace.phdrs, List.getElem_map, List.getElem_range]

theorem drop_phdrs_of_le {i : Nat} (hi : mem.ePhnum f.data ≤ i) :
    (mem.phdrs f.data).drop i = [] := by
  apply List.drop_eq_nil_of_le
  rwa [AddrSpace.phdrs, List.length_map, List.length_range]

/-- With every segment in the window, the loop takes the headers as they were. -/
theorem loadLoop_eq_foldl (hapart : ∀ a < wordSize, f.Holds mem a → ¬w a) {fuel i : Nat}
    (hfuel : mem.ePhnum f.data ≤ fuel + i) (h : f.Intact mem s.mem)
    (hin : ∀ p ∈ (mem.phdrs f.data).drop i, StaysIn addr addrLo w p) :
    loadLoop f.data (mem.phdrTable f.data) addr addrLo fuel i s =
      ((mem.phdrs f.data).drop i).foldl (loadPhdr f.data addr addrLo) s := by
  induction fuel generalizing i s with
  | zero =>
      rw [Nat.zero_add] at hfuel
      rw [drop_phdrs_of_le hfuel]
      rfl
  | succ fuel ih =>
      rw [loadLoop, h.ePhnum]
      by_cases hi : i < mem.ePhnum f.data
      · rw [drop_phdrs hi] at hin ⊢
        rw [if_pos hi, h.phdr hi, List.foldl_cons]
        exact ih (by omega) (h.loadPhdr hapart (hin _ List.mem_cons_self))
          fun p hp => hin p (List.mem_cons_of_mem _ hp)
      · rw [if_neg hi, drop_phdrs_of_le (not_lt.mp hi)]
        rfl

/-- A loop that stores to the window only has every segment there. -/
theorem staysIn_of_loadLoop (hapart : ∀ a < wordSize, f.Holds mem a → ¬w a) {fuel i : Nat}
    (hfuel : mem.ePhnum f.data ≤ fuel + i) (h : f.Intact mem s.mem)
    (hin : ∀ a ∈ (loadLoop f.data (mem.phdrTable f.data) addr addrLo fuel i s).stored, w a) :
    ∀ p ∈ (mem.phdrs f.data).drop i, StaysIn addr addrLo w p := by
  induction fuel generalizing i s with
  | zero =>
      rw [Nat.zero_add] at hfuel
      rw [drop_phdrs_of_le hfuel]
      exact fun p hp => absurd hp List.not_mem_nil
  | succ fuel ih =>
      rw [loadLoop, h.ePhnum] at hin
      by_cases hi : i < mem.ePhnum f.data
      · rw [if_pos hi, h.phdr hi] at hin
        have hfirst : StaysIn addr addrLo w (mem.phdr (mem.phdrTable f.data) i) :=
          fun hp a ha hplaced =>
            hin a (mem_loadLoop_stored (loadPhdr_stored.mpr (Or.inl ⟨hp, ha, hplaced⟩)))
        have hrest := ih (by omega) (h.loadPhdr hapart hfirst) hin
        rw [drop_phdrs hi]
        intro p hp
        rcases List.mem_cons.mp hp with rfl | hp
        · exact hfirst
        · exact hrest p hp
      · rw [drop_phdrs_of_le (not_lt.mp hi)]
        exact fun p hp => absurd hp List.not_mem_nil

end Window

end MemFile

end ClayFigure
