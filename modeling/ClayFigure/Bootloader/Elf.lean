/-
# Loading an ELF image

`LoadSegment` of `bootloader/elf.c`: the extent of the loadable segments gives a number of
pages, the pages are allocated and cleared, and each segment is cleared and copied in turn.
The firmware's services are `AllocatePages`, a parameter, and `SetMem` and `CopyMem`, which
write a range of bytes. The result says for which images a load that succeeds is a correct
one, whatever was in memory before.
-/

import Mathlib.Data.List.Basic
import Mathlib.Data.List.Induction
import ClayFigure.Kernel.Global

namespace ClayFigure

/-! ## The code -/

/-- `Elf64_Phdr`. -/
structure Elf64Phdr where
  pType : Nat
  pOffset : Nat
  pVaddr : Nat
  pFilesz : Nat
  pMemsz : Nat
  deriving DecidableEq, Repr

/-- The image: the fields of `Elf64_Ehdr`, the program headers it points to and the bytes of
the file by offset. -/
structure ElfFile where
  magic : List Nat
  eType : Nat
  eVersion : Nat
  eEntry : Nat
  phdrs : List Elf64Phdr
  data : Nat → Nat

/-- `ELFMAG0` to `ELFMAG3`. -/
abbrev elfMag : List Nat := [0x7f, 0x45, 0x4c, 0x46]

abbrev evCurrent : Nat := 1

abbrev etExec : Nat := 2

abbrev ptLoad : Nat := 1

/-- The two ways `LoadSegment` asks for pages. -/
inductive AllocateType
  | allocateAnyPages
  | allocateAddress
  deriving DecidableEq

/-- `gBS->AllocatePages`: type, number of pages and address give the address of the pages, or
the error status. -/
abbrev AllocatePages : Type := AllocateType → Nat → Nat → Except Nat Nat

/-- Memory: the byte at each 64-bit address. -/
abbrev Bytes : Type := Nat → Nat

/-- `gBS->SetMem`; the distance from `buffer` is taken in 64 bits. -/
def Bytes.setMem (mem : Bytes) (buffer size value : Nat) : Bytes := fun a =>
  if sub64 a buffer < size then value else mem a

/-- `gBS->CopyMem` out of the file. -/
def Bytes.copyMem (mem : Bytes) (destination : Nat) (data : Nat → Nat) (offset size : Nat) :
    Bytes := fun a =>
  if sub64 a destination < size then data (offset + sub64 a destination) else mem a

namespace ElfFile

/-- The body of the first loop: `AddrLo` and `AddrHi`. -/
def extend (extent : Nat × Nat) (phdr : Elf64Phdr) : Nat × Nat :=
  if phdr.pType = ptLoad then
    if phdr.pVaddr = 0 then extent
    else
      (if extent.1 > phdr.pVaddr then phdr.pVaddr else extent.1,
        if extent.2 < add64 phdr.pVaddr phdr.pMemsz then phdr.pVaddr else extent.2)
  else extent

/-- `AddrLo` and `AddrHi` behind the first loop. -/
def extent (elf : ElfFile) : Nat × Nat := elf.phdrs.foldl extend (0xffffffffffffffff, 0)

/-- `Pages`. -/
def pages (elf : ElfFile) : Nat := sub64 elf.extent.2 elf.extent.1 / 0x1000 + 1

/-- `Phdr->p_memsz`, the size in the first program header. -/
def firstMemsz (elf : ElfFile) : Nat := (elf.phdrs.head?.map Elf64Phdr.pMemsz).getD 0

/-- The body of the second loop. -/
def place (elf : ElfFile) (relocateBase : Nat) (mem : Bytes) (phdr : Elf64Phdr) : Bytes :=
  if phdr.pType = ptLoad then
    if phdr.pVaddr = 0 then mem
    else
      let destination := add64 relocateBase (sub64 phdr.pVaddr elf.extent.1)
      (mem.setMem destination elf.firstMemsz 0).copyMem destination elf.data phdr.pOffset
        phdr.pFilesz
  else mem

end ElfFile

/-- What `LoadSegment` leaves: the value returned (0 is `EFI_SUCCESS`), the memory, the value
stored through `Entry` and where the pages were allocated. -/
structure LoadResult where
  status : Nat
  mem : Bytes
  entry : Option Nat
  relocateBase : Option Nat

/-- `EFI_ERR`. -/
abbrev efiErr : Nat := 0x8000000000000000

/-- `LoadSegment`. -/
def ElfFile.loadSegment (elf : ElfFile) (allocatePages : AllocatePages) (relocateBase : Nat)
    (mem : Bytes) : LoadResult :=
  if elf.magic ≠ elfMag then ⟨efiErr, mem, none, none⟩
  else if elf.eVersion ≠ evCurrent then ⟨efiErr, mem, none, none⟩
  else if elf.eType ≠ etExec then ⟨efiErr, mem, none, none⟩
  else
    let type := if relocateBase = 0 then .allocateAnyPages else .allocateAddress
    match allocatePages type elf.pages relocateBase with
    | .error status => ⟨status, mem, none, none⟩
    | .ok base =>
        let mem := mem.setMem base (elf.pages * 0x1000) 0
        ⟨0, elf.phdrs.foldl (elf.place base) mem, some elf.eEntry, some base⟩

/-! ## What a load should do -/

namespace ElfFile

/-- The loadable segments. -/
def loads (elf : ElfFile) : List Elf64Phdr := elf.phdrs.filter (·.pType = ptLoad)

/-- An executable image with segments in ascending order. -/
structure WellFormed (elf : ElfFile) : Prop where
  magic : elf.magic = elfMag
  version : elf.eVersion = evCurrent
  type : elf.eType = etExec
  nonzero : ∀ p ∈ elf.loads, p.pVaddr ≠ 0
  bounded : ∀ p ∈ elf.loads, p.pVaddr < 2 ^ 64 ∧ p.pVaddr + p.pMemsz ≤ 2 ^ 64
  ascending : elf.loads.Pairwise fun p q => p.pVaddr + p.pMemsz ≤ q.pVaddr
  filesz : ∀ p ∈ elf.loads, p.pFilesz ≤ p.pMemsz

/-- What a segment holds at a distance from its start: the bytes of the file, then zeros. -/
def segmentByte (elf : ElfFile) (p : Elf64Phdr) (d : Nat) : Nat :=
  if d < p.pFilesz then elf.data (p.pOffset + d) else 0

/-- The load succeeded at `base`, nothing changed outside of the pages, and every segment is
in its place relative to the lowest one. -/
structure LoadedAt (elf : ElfFile) (base : Nat) (mem : Bytes) (result : LoadResult) : Prop where
  success : result.status = 0
  allocated : result.relocateBase = some base
  inside : ∀ a < 2 ^ 64, ¬ (base ≤ a ∧ a < base + elf.pages * 0x1000) → result.mem a = mem a
  placed : ∀ lowest ∈ elf.loads, (∀ p ∈ elf.loads, lowest.pVaddr ≤ p.pVaddr) →
    ∀ p ∈ elf.loads, ∀ k < p.pMemsz,
      result.mem (add64 base (p.pVaddr - lowest.pVaddr + k)) = elf.segmentByte p k

/-- Where the last segment starts that ends below the end of the address space. -/
def lastStartOf (segments : List Elf64Phdr) : Nat :=
  ((segments.filter fun p => p.pVaddr + p.pMemsz < wordSize).getLast?.map
    Elf64Phdr.pVaddr).getD 0

/-- Behind the start of the last segment the pages have room for its own size and for the
size in the first program header. -/
def FitsPages (elf : ElfFile) : Prop :=
  ∀ first ∈ elf.loads.head?, ∀ last ∈ elf.loads.getLast?,
    last.pVaddr - first.pVaddr + max elf.firstMemsz last.pMemsz ≤
      (sub64 (lastStartOf elf.loads) first.pVaddr / 0x1000 + 1) * 0x1000

/-! ## The extent -/

/-- Both loops skip what is not a loadable segment. -/
theorem foldl_loads {β : Type} (elf : ElfFile) (f : β → Elf64Phdr → β)
    (hskip : ∀ b p, p.pType ≠ ptLoad → f b p = b) (b : β) :
    elf.phdrs.foldl f b = elf.loads.foldl f b := by
  rw [loads, List.foldl_filter]
  congr
  funext b p
  split
  · rfl
  · next htype => exact hskip b p (by simpa using htype)

theorem mem_loads {elf : ElfFile} {p : Elf64Phdr} (hp : p ∈ elf.loads) : p.pType = ptLoad := by
  simpa using (List.mem_filter.mp hp).2

theorem extend_of_load {p : Elf64Phdr} (htype : p.pType = ptLoad) (hne : p.pVaddr ≠ 0)
    (lo hi : Nat) : extend (lo, hi) p = (if lo > p.pVaddr then p.pVaddr else lo,
      if hi < add64 p.pVaddr p.pMemsz then p.pVaddr else hi) := by
  rw [extend, if_pos htype, if_neg hne]

theorem lastStartOf_concat (segments : List Elf64Phdr) (p : Elf64Phdr) :
    lastStartOf (segments ++ [p]) =
      if p.pVaddr + p.pMemsz < wordSize then p.pVaddr else lastStartOf segments := by
  unfold lastStartOf
  rw [List.filter_append]
  split
  · next hend => simp [hend]
  · next hend => simp [hend]

theorem lastStartOf_le {segments : List Elf64Phdr} {v : Nat}
    (h : ∀ q ∈ segments, q.pVaddr ≤ v) : lastStartOf segments ≤ v := by
  unfold lastStartOf
  cases hlast : (segments.filter fun p => p.pVaddr + p.pMemsz < wordSize).getLast? with
  | none => exact Nat.zero_le v
  | some q => exact h q (List.mem_of_mem_filter (List.mem_of_getLast? hlast))

/-- The first loop over ascending segments. -/
theorem foldl_extend (first : Elf64Phdr) (rest : List Elf64Phdr)
    (hload : ∀ p ∈ first :: rest, p.pType = ptLoad ∧ p.pVaddr ≠ 0)
    (hbounded : ∀ p ∈ first :: rest, p.pVaddr < 2 ^ 64 ∧ p.pVaddr + p.pMemsz ≤ 2 ^ 64)
    (hsorted : (first :: rest).Pairwise fun p q => p.pVaddr + p.pMemsz ≤ q.pVaddr) :
    (first :: rest).foldl extend (0xffffffffffffffff, 0) =
      (first.pVaddr, lastStartOf (first :: rest)) := by
  induction rest using List.reverseRecOn with
  | nil =>
      obtain ⟨htype, hne⟩ := hload first (by simp)
      obtain ⟨hlt, hend⟩ := hbounded first (by simp)
      have hlast := lastStartOf_concat [] first
      rw [List.nil_append] at hlast
      rw [List.foldl_cons, List.foldl_nil, extend_of_load htype hne, hlast, Prod.mk.injEq]
      unfold add64 wordSize
      refine ⟨by split <;> omega, ?_⟩
      split
      · rw [if_pos (by omega)]
      · rw [if_neg (by omega)]
        rfl
  | append_singleton rest p ih =>
      rw [← List.cons_append] at *
      obtain ⟨htype, hne⟩ := hload p (by simp)
      obtain ⟨hlt, hend⟩ := hbounded p (by simp)
      obtain ⟨hsorted, -, hbelow⟩ := List.pairwise_append.mp hsorted
      have hstart {q : Elf64Phdr} (hq : q ∈ first :: rest) : q.pVaddr ≤ p.pVaddr :=
        Nat.le_trans (Nat.le_add_right _ _) (hbelow q hq p (by simp))
      have hfirst := hstart (List.mem_cons_self ..)
      have hlast : lastStartOf (first :: rest) ≤ p.pVaddr := lastStartOf_le fun q => hstart
      rw [List.foldl_append, ih (fun q hq => hload q (List.mem_append_left _ hq))
        (fun q hq => hbounded q (List.mem_append_left _ hq)) hsorted, List.foldl_cons,
        List.foldl_nil, extend_of_load htype hne, lastStartOf_concat, Prod.mk.injEq]
      unfold add64 wordSize
      refine ⟨if_neg (by omega), ?_⟩
      by_cases hinside : p.pVaddr + p.pMemsz < 0x10000000000000000
      · rw [if_pos hinside]
        split
        · rfl
        · omega
      · rw [if_neg hinside, if_neg (by omega)]

theorem WellFormed.extent {elf : ElfFile} (h : elf.WellFormed) {first : Elf64Phdr}
    {rest : List Elf64Phdr} (hloads : elf.loads = first :: rest) :
    elf.extent = (first.pVaddr, lastStartOf elf.loads) := by
  have hskip (b : Nat × Nat) (p : Elf64Phdr) (htype : p.pType ≠ ptLoad) : extend b p = b :=
    if_neg htype
  rw [ElfFile.extent, foldl_loads elf extend hskip, hloads]
  apply foldl_extend
  · intro p hp
    rw [← hloads] at hp
    exact ⟨mem_loads hp, h.nonzero p hp⟩
  · exact fun p hp => h.bounded p (hloads ▸ hp)
  · exact hloads ▸ h.ascending

/-! ## What one address holds -/

/-- What one segment leaves at distance `y` from the base, where `v` was. -/
def placedAt (elf : ElfFile) (lo y v : Nat) (p : Elf64Phdr) : Nat :=
  let d := sub64 y (sub64 p.pVaddr lo)
  if d < p.pFilesz then elf.data (p.pOffset + d) else if d < elf.firstMemsz then 0 else v

theorem sub64_add64 {a base x : Nat} (ha : a < 2 ^ 64) (hbase : base < 2 ^ 64)
    (hx : x < 2 ^ 64) : sub64 a (add64 base x) = sub64 (sub64 a base) x := by
  unfold sub64 add64 wordSize
  omega

theorem sub64_add64_self {base y : Nat} (hbase : base < 2 ^ 64) (hy : y < 2 ^ 64) :
    sub64 (add64 base y) base = y := by
  unfold sub64 add64 wordSize
  omega

theorem foldl_place {elf : ElfFile} {base a : Nat} (ha : a < 2 ^ 64) (hbase : base < 2 ^ 64)
    {segments : List Elf64Phdr} (hload : ∀ p ∈ segments, p.pType = ptLoad ∧ p.pVaddr ≠ 0)
    (mem : Bytes) : segments.foldl (elf.place base) mem a =
      segments.foldl (elf.placedAt elf.extent.1 (sub64 a base)) (mem a) := by
  induction segments generalizing mem with
  | nil => rfl
  | cons p segments ih =>
      obtain ⟨htype, hne⟩ := hload p (List.mem_cons_self ..)
      have hplace : elf.place base mem p a =
          elf.placedAt elf.extent.1 (sub64 a base) (mem a) p := by
        rw [place, if_pos htype, if_neg hne]
        simp only [placedAt, Bytes.copyMem, Bytes.setMem,
          sub64_add64 ha hbase (sub64_lt p.pVaddr elf.extent.1)]
      rw [List.foldl_cons, List.foldl_cons, ← hplace]
      exact ih (fun q hq => hload q (List.mem_cons_of_mem _ hq)) _

section Fold

variable {elf : ElfFile} {lo y v : Nat} {segments : List Elf64Phdr}

/-- Segments that do not reach `y` leave it. -/
theorem foldl_placedAt_of_not (h : ∀ p ∈ segments, p.pFilesz ≤ sub64 y (sub64 p.pVaddr lo) ∧
    elf.firstMemsz ≤ sub64 y (sub64 p.pVaddr lo)) :
    segments.foldl (elf.placedAt lo y) v = v := by
  induction segments with
  | nil => rfl
  | cons p segments ih =>
      obtain ⟨hfile, hset⟩ := h p (List.mem_cons_self ..)
      have hkeep : elf.placedAt lo y v p = v := by
        simp only [placedAt]
        rw [if_neg (Nat.not_lt.mpr hfile), if_neg (Nat.not_lt.mpr hset)]
      rw [List.foldl_cons, hkeep]
      exact ih fun q hq => h q (List.mem_cons_of_mem _ hq)

/-- Segments whose file bytes do not reach `y` leave a zero there. -/
theorem foldl_placedAt_zero (h : ∀ p ∈ segments, p.pFilesz ≤ sub64 y (sub64 p.pVaddr lo)) :
    segments.foldl (elf.placedAt lo y) 0 = 0 := by
  induction segments with
  | nil => rfl
  | cons p segments ih =>
      have hzero : elf.placedAt lo y 0 p = 0 := by
        simp only [placedAt]
        rw [if_neg (Nat.not_lt.mpr (h p (List.mem_cons_self ..))), ite_self]
      rw [List.foldl_cons, hzero]
      exact ih fun q hq => h q (List.mem_cons_of_mem _ hq)

end Fold

/-! ## The load -/

variable {elf : ElfFile} {allocatePages : AllocatePages} {relocateBase base : Nat}

/-- The type of the request for pages. -/
abbrev requestType (relocateBase : Nat) : AllocateType :=
  if relocateBase = 0 then .allocateAnyPages else .allocateAddress

theorem loadSegment_eq (h : elf.WellFormed)
    (hbase : allocatePages (requestType relocateBase) elf.pages relocateBase = .ok base)
    (mem : Bytes) : elf.loadSegment allocatePages relocateBase mem =
      ⟨0, elf.loads.foldl (elf.place base) (mem.setMem base (elf.pages * 0x1000) 0),
        some elf.eEntry, some base⟩ := by
  have hskip (m : Bytes) (p : Elf64Phdr) (htype : p.pType ≠ ptLoad) : elf.place base m p = m :=
    if_neg htype
  rw [loadSegment, if_neg (not_not.mpr h.magic), if_neg (not_not.mpr h.version),
    if_neg (not_not.mpr h.type), ← foldl_loads elf (elf.place base) hskip]
  simp only [hbase]

/-- The byte at an address after the load, by the segments in turn. -/
theorem loadSegment_mem (h : elf.WellFormed)
    (hbase : allocatePages (requestType relocateBase) elf.pages relocateBase = .ok base)
    (hpages : base + elf.pages * 0x1000 < 2 ^ 64) (mem : Bytes) {a : Nat} (ha : a < 2 ^ 64) :
    (elf.loadSegment allocatePages relocateBase mem).mem a =
      elf.loads.foldl (elf.placedAt elf.extent.1 (sub64 a base))
        (if sub64 a base < elf.pages * 0x1000 then 0 else mem a) := by
  rw [loadSegment_eq h hbase]
  exact foldl_place ha (by omega) (fun p hp => ⟨mem_loads hp, h.nonzero p hp⟩) _

/-- Distances of ascending segments from the first one. -/
theorem WellFormed.offset (h : elf.WellFormed) {first : Elf64Phdr} {rest : List Elf64Phdr}
    (hloads : elf.loads = first :: rest) {p : Elf64Phdr} (hp : p ∈ elf.loads) :
    first.pVaddr ≤ p.pVaddr ∧ sub64 p.pVaddr first.pVaddr = p.pVaddr - first.pVaddr := by
  have hle : first.pVaddr ≤ p.pVaddr := by
    rw [hloads] at hp
    rcases List.mem_cons.mp hp with rfl | hp
    · exact Nat.le_refl _
    · have hsorted := List.pairwise_cons.mp (hloads ▸ h.ascending)
      exact Nat.le_trans (Nat.le_add_right _ _) (hsorted.1 p hp)
  exact ⟨hle, sub64_of_le hle (h.bounded p hp).1⟩

theorem pages_of_loads (h : elf.WellFormed) {first : Elf64Phdr} {rest : List Elf64Phdr}
    (hloads : elf.loads = first :: rest) :
    elf.pages = sub64 (lastStartOf elf.loads) first.pVaddr / 0x1000 + 1 := by
  rw [pages, h.extent hloads]

/-- Room behind the last segment is room behind every one. -/
theorem FitsPages.room (hfits : elf.FitsPages) (h : elf.WellFormed) {first : Elf64Phdr}
    {rest : List Elf64Phdr} (hloads : elf.loads = first :: rest) {p : Elf64Phdr}
    (hp : p ∈ elf.loads) :
    p.pVaddr - first.pVaddr + elf.firstMemsz ≤ elf.pages * 0x1000 ∧
      p.pVaddr - first.pVaddr + p.pMemsz ≤ elf.pages * 0x1000 := by
  have hne : elf.loads ≠ [] := by simp [hloads]
  have hlast := hfits first (by simp [hloads]) _ (List.getLast?_eq_getLast_of_ne_nil hne)
  rw [← pages_of_loads h hloads] at hlast
  have hle : p.pVaddr ≤ (elf.loads.getLast hne).pVaddr ∧
      (p = elf.loads.getLast hne ∨
        p.pVaddr + p.pMemsz ≤ (elf.loads.getLast hne).pVaddr) := by
    have hsorted := h.ascending
    rw [← List.dropLast_append_getLast hne] at hp hsorted
    obtain ⟨-, -, hbelow⟩ := List.pairwise_append.mp hsorted
    rcases List.mem_append.mp hp with hp | hp
    · have := hbelow p hp _ (List.mem_singleton_self _)
      exact ⟨by omega, Or.inr this⟩
    · obtain rfl := List.mem_singleton.mp hp
      exact ⟨Nat.le_refl _, Or.inl rfl⟩
  have hfirst := (h.offset hloads (List.getLast_mem hne)).1
  have hfirst' := (h.offset hloads hp).1
  rcases hle with ⟨hle, rfl | hend⟩
  · omega
  · omega

/-- With room for every segment nothing outside of the pages is written. -/
theorem FitsPages.inside (hfits : elf.FitsPages) (h : elf.WellFormed)
    (hbase : allocatePages (requestType relocateBase) elf.pages relocateBase = .ok base)
    (hpages : base + elf.pages * 0x1000 < 2 ^ 64) (mem : Bytes) {a : Nat} (ha : a < 2 ^ 64)
    (hout : ¬ (base ≤ a ∧ a < base + elf.pages * 0x1000)) :
    (elf.loadSegment allocatePages relocateBase mem).mem a = mem a := by
  have hy : elf.pages * 0x1000 ≤ sub64 a base := by
    unfold sub64 wordSize
    omega
  rw [loadSegment_mem h hbase hpages mem ha, if_neg (Nat.not_lt.mpr hy)]
  cases hloads : elf.loads with
  | nil => rfl
  | cons first rest =>
      rw [← hloads, h.extent hloads]
      apply foldl_placedAt_of_not
      intro p hp
      obtain ⟨hset, hmem⟩ := hfits.room h hloads hp
      obtain ⟨hle, hoffset⟩ := h.offset hloads hp
      have hfile := h.filesz p hp
      have hlt := sub64_lt a base
      rw [hoffset, sub64_of_le (by omega) hlt]
      omega

/-- With room for every segment each byte of a segment is in its place. -/
theorem FitsPages.placed (hfits : elf.FitsPages) (h : elf.WellFormed)
    (hbase : allocatePages (requestType relocateBase) elf.pages relocateBase = .ok base)
    (hpages : base + elf.pages * 0x1000 < 2 ^ 64) (mem : Bytes) {first : Elf64Phdr}
    {rest : List Elf64Phdr} (hloads : elf.loads = first :: rest) {p : Elf64Phdr}
    (hp : p ∈ elf.loads) {k : Nat} (hk : k < p.pMemsz) :
    (elf.loadSegment allocatePages relocateBase mem).mem
        (add64 base (p.pVaddr - first.pVaddr + k)) = elf.segmentByte p k := by
  obtain ⟨-, hroom⟩ := hfits.room h hloads hp
  obtain ⟨hle, hoffset⟩ := h.offset hloads hp
  have haddr : add64 base (p.pVaddr - first.pVaddr + k) = base + (p.pVaddr - first.pVaddr + k) :=
    add64_of_lt (by unfold wordSize; omega)
  have hy : sub64 (base + (p.pVaddr - first.pVaddr + k)) base = p.pVaddr - first.pVaddr + k := by
    rw [sub64_of_le (by omega) (by unfold wordSize; omega)]
    omega
  rw [haddr, loadSegment_mem h hbase hpages mem (by omega), hy, if_pos (by omega),
    h.extent hloads]
  obtain ⟨pre, post, hsplit⟩ := List.append_of_mem hp
  have hsorted := h.ascending
  rw [hsplit] at hsorted
  obtain ⟨-, hrest, hbelow⟩ := List.pairwise_append.mp hsorted
  have habove := (List.pairwise_cons.mp hrest).1
  -- Segments before `p` leave the zeros of the pages, segments behind it start further up.
  have hpre : pre.foldl (elf.placedAt first.pVaddr (p.pVaddr - first.pVaddr + k)) 0 = 0 := by
    apply foldl_placedAt_zero
    intro q hq
    have hmem : q ∈ elf.loads := by
      rw [hsplit]
      exact List.mem_append_left _ hq
    obtain ⟨hle', hoffset'⟩ := h.offset hloads hmem
    have hfile := h.filesz q hmem
    have hend := hbelow q hq p (List.mem_cons_self ..)
    rw [hoffset', sub64_of_le (by omega) (by unfold wordSize; omega)]
    omega
  have hpost (v : Nat) :
      post.foldl (elf.placedAt first.pVaddr (p.pVaddr - first.pVaddr + k)) v = v := by
    apply foldl_placedAt_of_not
    intro q hq
    have hmem : q ∈ elf.loads := by
      rw [hsplit]
      exact List.mem_append_right _ (List.mem_cons_of_mem _ hq)
    obtain ⟨hset, hroom'⟩ := hfits.room h hloads hmem
    obtain ⟨hle', hoffset'⟩ := h.offset hloads hmem
    have hfile := h.filesz q hmem
    have hstart := habove q hq
    rw [hoffset']
    unfold sub64 wordSize
    omega
  have hself : elf.placedAt first.pVaddr (p.pVaddr - first.pVaddr + k) 0 p =
      elf.segmentByte p k := by
    have hd : sub64 (p.pVaddr - first.pVaddr + k) (p.pVaddr - first.pVaddr) = k := by
      rw [sub64_of_le (by omega) (by unfold wordSize; omega)]
      omega
    simp only [placedAt, segmentByte]
    rw [hoffset, hd, ite_self]
  rw [hsplit, List.foldl_append, List.foldl_cons, hpre, hpost, hself]

/-- If the last segment has no room, there is a place behind the pages, at a distance `d` from
the start of the segment, which the load writes or the segment has. -/
theorem exists_outside {pages offset first last : Nat} (hroom : pages < offset + max first last)
    (hempty : last = 0 → offset < pages) :
    ∃ d, pages ≤ offset + d ∧ (d < last ∨ last ≤ d ∧ d < first) ∧ offset + d ≤ max pages offset :=
  ⟨max pages offset - offset, by omega⟩

/-- A right load over every memory shows that no such place exists. -/
theorem not_outside (h : elf.WellFormed)
    (hbase : allocatePages (requestType relocateBase) elf.pages relocateBase = .ok base)
    (hpages : base + elf.pages * 0x1000 < 2 ^ 64)
    (hloaded : ∀ mem, elf.LoadedAt base mem (elf.loadSegment allocatePages relocateBase mem))
    {first last : Elf64Phdr} {rest pre : List Elf64Phdr} (hloads : elf.loads = first :: rest)
    (hsplit : elf.loads = pre ++ [last]) {d : Nat}
    (hout : elf.pages * 0x1000 ≤ last.pVaddr - first.pVaddr + d)
    (hbound : last.pVaddr - first.pVaddr + d < 2 ^ 64) :
    ¬ (d < last.pMemsz ∨ last.pMemsz ≤ d ∧ d < elf.firstMemsz) := by
  have hmem : last ∈ elf.loads := by simp [hsplit]
  obtain ⟨-, hoffset⟩ := h.offset hloads hmem
  have hbase64 : base < 2 ^ 64 := Nat.lt_of_le_of_lt (Nat.le_add_right _ _) hpages
  have hdist := sub64_add64_self hbase64 hbound
  have hfile := h.filesz last hmem
  -- A memory that holds something else there.
  obtain ⟨mem, hmemory⟩ : ∃ mem : Bytes, ∀ a, mem a ≠ elf.segmentByte last d := by
    by_cases hzero : elf.segmentByte last d = 0
    · exact ⟨fun _ => 1, fun _ heq => absurd (heq.trans hzero) Nat.one_ne_zero⟩
    · exact ⟨fun _ => 0, fun _ heq => hzero heq.symm⟩
  have hkeep := (hloaded mem).inside (add64 base (last.pVaddr - first.pVaddr + d)) (add64_lt _ _)
    (by
      rintro ⟨hlo, hhi⟩
      rw [sub64_of_le hlo (add64_lt _ _)] at hdist
      omega)
  rintro (hsegment | ⟨hsegment, hset⟩)
  · have hplaced := (hloaded mem).placed first (by simp [hloads])
      (fun p hp => (h.offset hloads hp).1) last hmem d hsegment
    exact hmemory _ (hkeep.symm.trans hplaced)
  · have hself : sub64 (last.pVaddr - first.pVaddr + d) (last.pVaddr - first.pVaddr) = d := by
      rw [sub64_of_le (Nat.le_add_right _ _) hbound, Nat.add_sub_cancel_left]
    have hnofile : ¬ d < last.pFilesz := Nat.not_lt.mpr (Nat.le_trans hfile hsegment)
    rw [loadSegment_mem h hbase hpages _ (add64_lt _ _), hdist, h.extent hloads, hsplit,
      List.foldl_append, List.foldl_cons, List.foldl_nil] at hkeep
    simp only [placedAt, hoffset, hself, if_neg hnofile, if_pos hset] at hkeep
    apply hmemory
    rw [← hkeep, segmentByte, if_neg hnofile]

/-- A load that is right over every memory has room behind the last segment. -/
theorem fitsPages_of_loadedAt (h : elf.WellFormed)
    (hbase : allocatePages (requestType relocateBase) elf.pages relocateBase = .ok base)
    (hpages : base + elf.pages * 0x1000 < 2 ^ 64)
    (hloaded : ∀ mem, elf.LoadedAt base mem (elf.loadSegment allocatePages relocateBase mem)) :
    elf.FitsPages := by
  intro first hfirst last hlast
  obtain ⟨rest, hloads⟩ : ∃ rest, elf.loads = first :: rest := List.head?_eq_some_iff.mp hfirst
  obtain ⟨pre, hsplit⟩ := List.getLast?_eq_some_iff.mp hlast
  have hmem : last ∈ elf.loads := by simp [hsplit]
  have hbound := (h.bounded last hmem).1
  -- A segment without bytes ends below the end of the address space.
  have hempty : last.pMemsz = 0 → last.pVaddr - first.pVaddr < elf.pages * 0x1000 := by
    intro hzero
    have hend : last.pVaddr + last.pMemsz < wordSize := by
      rw [hzero]
      exact hbound
    rw [pages_of_loads h hloads, hsplit, lastStartOf_concat, if_pos hend,
      (h.offset hloads hmem).2]
    omega
  rw [← pages_of_loads h hloads]
  by_contra hroom
  obtain ⟨d, hout, hwritten, hle⟩ := exists_outside (Nat.not_le.mp hroom) hempty
  refine not_outside h hbase hpages hloaded hloads hsplit hout ?_ hwritten
  exact Nat.lt_of_le_of_lt hle (Nat.max_lt.mpr
    ⟨Nat.lt_of_le_of_lt (Nat.le_add_left _ _) hpages, Nat.lt_of_le_of_lt (Nat.sub_le _ _) hbound⟩)

/-- A load that succeeds is right, whatever was in memory, exactly when the pages have room
behind the start of the last segment. -/
theorem loadSegment_correct_iff (h : elf.WellFormed)
    (hbase : allocatePages (requestType relocateBase) elf.pages relocateBase = .ok base)
    (hpages : base + elf.pages * 0x1000 < 2 ^ 64) :
    (∀ mem, elf.LoadedAt base mem (elf.loadSegment allocatePages relocateBase mem)) ↔
      elf.FitsPages := by
  constructor
  · exact fitsPages_of_loadedAt h hbase hpages
  · intro hfits mem
    have hresult := loadSegment_eq h hbase mem
    refine ⟨by rw [hresult], by rw [hresult], fun a ha hout => ?_, ?_⟩
    · exact hfits.inside h hbase hpages mem ha hout
    · intro lowest hlowest hleast p hp k hk
      cases hloads : elf.loads with
      | nil => simp [hloads] at hlowest
      | cons first rest =>
          have hmem : first ∈ elf.loads := by simp [hloads]
          have heq : lowest.pVaddr = first.pVaddr :=
            Nat.le_antisymm (hleast first hmem) (h.offset hloads hlowest).1
          rw [heq]
          exact hfits.placed h hbase hpages mem hloads hp hk

/-! ## Two images -/

/-- An executable with the given segments; its bytes are all 7. -/
def executable (phdrs : List Elf64Phdr) : ElfFile :=
  ⟨elfMag, etExec, evCurrent, 0xffffffff80100000, phdrs, fun _ => 7⟩

/-- Code and data, each with a tail of zeros that ends in its page. -/
def twoPages : ElfFile :=
  executable [⟨ptLoad, 0x1000, 0xffffffff80100000, 0x800, 0x900⟩,
    ⟨ptLoad, 0x2000, 0xffffffff80101000, 0x200, 0xa00⟩]

/-- Code, and data with a tail of zeros that is three pages long. -/
def longTail : ElfFile :=
  executable [⟨ptLoad, 0x1000, 0xffffffff80100000, 0x800, 0x800⟩,
    ⟨ptLoad, 0x2000, 0xffffffff80101000, 0x200, 0x3200⟩]

/-- Firmware that gives the pages asked for. -/
def grant : AllocatePages := fun _ _ address => .ok address

theorem wellFormed_executable {phdrs : List Elf64Phdr}
    (hphdrs : ∀ p ∈ phdrs, p.pType = ptLoad ∧ p.pVaddr ≠ 0 ∧ p.pVaddr < 2 ^ 64 ∧
      p.pVaddr + p.pMemsz ≤ 2 ^ 64 ∧ p.pFilesz ≤ p.pMemsz)
    (hsorted : phdrs.Pairwise fun p q => p.pVaddr + p.pMemsz ≤ q.pVaddr) :
    (executable phdrs).WellFormed := by
  have hloads : (executable phdrs).loads = phdrs :=
    List.filter_eq_self.mpr fun p hp => by simpa using (hphdrs p hp).1
  refine ⟨rfl, rfl, rfl, ?_, ?_, ?_, ?_⟩
  · exact fun p hp => (hphdrs p (hloads ▸ hp)).2.1
  · exact fun p hp => ⟨(hphdrs p (hloads ▸ hp)).2.2.1, (hphdrs p (hloads ▸ hp)).2.2.2.1⟩
  · rw [hloads]
    exact hsorted
  · exact fun p hp => (hphdrs p (hloads ▸ hp)).2.2.2.2

theorem twoPages_loaded :
    twoPages.LoadedAt 0x100000 (fun _ => 1) (twoPages.loadSegment grant 0x100000 fun _ => 1) := by
  have hwf : twoPages.WellFormed := wellFormed_executable (by simp) (by simp)
  have hfits : twoPages.FitsPages := by
    rintro first ⟨rfl⟩ last ⟨rfl⟩
    decide
  exact (loadSegment_correct_iff hwf rfl (by decide)).mpr hfits _

/-- The tail of zeros lies behind the pages and keeps what was in memory. -/
theorem longTail_not_loaded :
    ¬ ∀ mem, longTail.LoadedAt 0x100000 mem (longTail.loadSegment grant 0x100000 mem) := by
  intro hloaded
  have hwf : longTail.WellFormed := wellFormed_executable (by simp) (by simp)
  have hfits := fitsPages_of_loadedAt hwf rfl (by decide) hloaded
  have hroom := hfits _ rfl _ rfl
  exact absurd hroom (by decide)

end ElfFile

end ClayFigure
