/-
# What a load keeps and what it leaves

Two results about `elf/elf.c`. The first is about any bytes at all: the functions keep the file
and the memory around the window exactly if the file starts with the magic and no segment goes
beyond the extent of the segments. The second is about images as a linker makes them: every
segment is in its place, whatever the order of the headers.
-/

import ClayFigure.Elf.ReadElf

namespace ClayFigure

open Math (toLE)

namespace MemFile

/-! ## A small image -/

/-- A program header. -/
def phdrBytes (type offset vaddr filesz memsz : Nat) : List Byte :=
  toLE 4 type ++ toLE 4 5 ++ toLE 8 offset ++ toLE 8 vaddr ++ toLE 8 vaddr ++ toLE 8 filesz ++
    toLE 8 memsz ++ toLE 8 1

/-- Two loadable segments, the higher one first, around one of another type. -/
def smallImage : List Byte :=
  elfMagBytes ++ List.replicate 12 0 ++ toLE 2 etDyn ++ toLE 2 62 ++ toLE 4 evCurrent ++
    toLE 8 0 ++ toLE 8 64 ++ toLE 8 0 ++ toLE 4 0 ++ toLE 2 64 ++ toLE 2 56 ++ toLE 2 3 ++
    List.replicate 6 0 ++
    phdrBytes ptLoad 232 0x2000 2 4 ++ phdrBytes 4 0 0 0 0xffff ++
    phdrBytes ptLoad 234 0x1000 2 3 ++ [1, 2, 3, 4]

def smallFile : MemFile := ⟨0x1000, 236, by decide, by decide, by decide⟩

def smallMem : AddrSpace := fun a => smallImage.getD (sub64 a 0x1000) 0xff

theorem smallFile_loads : smallFile.loads smallMem =
    [⟨ptLoad, 232, 0x2000, 2, 4⟩, ⟨ptLoad, 234, 0x1000, 2, 3⟩] := by
  decide +kernel

/-- The headers lie in the file. -/
theorem smallFile_size_of_holds {a : Nat} (ha : a < wordSize)
    (hfile : smallFile.Holds smallMem a) : sub64 a smallFile.data < smallFile.size := by
  have htable : smallMem.phdrTable smallFile.data = 0x1040 := by decide +kernel
  have hphnum : smallMem.ePhnum smallFile.data = 3 := by decide +kernel
  have hdata : smallFile.data = 0x1000 := rfl
  have hsize : smallFile.size = 236 := rfl
  rw [Holds, htable, hphnum, hdata, hsize] at hfile
  rw [hdata, hsize]
  unfold sub64 wordSize at *
  omega

/-- The window is apart from the file. -/
theorem smallFile_apart {a : Nat} (ha : a < wordSize)
    (hfile : sub64 a smallFile.data < smallFile.size) :
    ¬smallFile.InWindow smallMem 0x100000 a := by
  have hsize : (elfLoadSize smallMem smallFile.data).1 = 0x1004 := by decide +kernel
  rw [InWindow, hsize]
  have hdata : sub64 a 0x1000 < 236 := hfile
  unfold sub64 wordSize at *
  omega

/-! ## Any bytes -/

section Bytes

variable {f : MemFile} {mem : AddrSpace} {addr : Nat}

/-- The functions are safe on a file: none of them changes it, the check accepts position
independent images only and all of them, and the load stores to its window only. -/
structure Safe (f : MemFile) (mem : AddrSpace) (addr : Nat) : Prop where
  check_intact : f.Intact mem (checkElf mem f.data).2
  size_intact : f.Intact mem (elfLoadSize mem f.data).2
  load_intact : f.Intact mem (elfLoadSegment mem f.data addr).mem
  accepts : (checkElf mem f.data).1 = true ↔ f.IsElf mem
  inside : ∀ a ∈ (elfLoadSegment mem f.data addr).stored, f.InWindow mem addr a

/-- A segment ends within the distance from the lowest start to the highest end. -/
def Fits (f : MemFile) (mem : AddrSpace) (p : Elf64Phdr) : Prop :=
  max p.pMemsz p.pFilesz = 0 ∨
    ∃ lo hi, IsLeast (f.starts mem) lo ∧ IsGreatest (f.ends mem) hi ∧
      p.pVaddr - lo + max p.pMemsz p.pFilesz ≤ sub64 hi lo

/-- What the functions rely on and do not check. -/
structure Sound (f : MemFile) (mem : AddrSpace) : Prop where
  magic : f.HasMagic mem
  size : mem.eVersion f.data = evCurrent → mem.eType f.data = etDyn → 24 ≤ f.size
  fits : ∀ p ∈ f.loads mem, f.Fits mem p

/-- The loop of a load, once the check has changed nothing. -/
theorem HasMagic.elfLoadSegment_eq (h : f.HasMagic mem) (addr : Nat) :
    elfLoadSegment mem f.data addr =
      loadLoop f.data (mem.phdrTable f.data) addr (elfPtLoadAddr mem f.data).1 0x10000 0
        ⟨mem, []⟩ := by
  rw [elfLoadSegment, h.checkElf_eq]

theorem HasMagic.elfLoadSize_eq (h : f.HasMagic mem) :
    elfLoadSize mem f.data =
      (sub64 (elfPtLoadAddr mem f.data).2 (elfPtLoadAddr mem f.data).1, mem) := by
  rw [elfLoadSize, h.checkElf_eq]

/-- A segment stays in the window exactly if it fits into the extent of the segments. -/
theorem fits_iff_staysIn (h : f.HasMagic mem) (haddr : addr < wordSize) {p : Elf64Phdr}
    (hp : p ∈ f.loads mem) :
    f.Fits mem p ↔ StaysIn addr (elfPtLoadAddr mem f.data).1 (f.InWindow mem addr) p := by
  have hlo := isLeast_lo ⟨p, hp⟩
  have hhi := isGreatest_hi ⟨p, hp⟩
  have hwindow : ∀ a, f.InWindow mem addr a ↔
      sub64 a addr < sub64 (elfPtLoadAddr mem f.data).2 (elfPtLoadAddr mem f.data).1 := by
    intro a
    rw [InWindow, h.elfLoadSize_eq]
  have hinside := range_inside_iff (m := max p.pMemsz p.pFilesz) haddr
    (sub64_lt p.pVaddr (elfPtLoadAddr mem f.data).1)
    (sub64_lt (elfPtLoadAddr mem f.data).2 (elfPtLoadAddr mem f.data).1)
  rw [sub64_lo hp hlo] at hinside
  constructor
  · rintro (hempty | ⟨lo, hi, hleast, hgreatest, hfit⟩) - a ha hplaced
    · rw [PlacedAt, hempty] at hplaced
      exact absurd hplaced (Nat.not_lt_zero _)
    · obtain rfl := hleast.unique hlo
      obtain rfl := hgreatest.unique hhi
      rw [PlacedAt, relocateAddr, sub64_lo hp hlo] at hplaced
      exact (hwindow a).mpr (hinside.mpr (Or.inr hfit) a ha hplaced)
  · intro hstays
    have hin := hinside.mp fun a ha hplaced =>
      (hwindow a).mp (hstays (mem_loads.mp hp).2 a ha (by
        rwa [PlacedAt, relocateAddr, sub64_lo hp hlo]))
    exact hin.imp_right fun hfit => ⟨_, _, hlo, hhi, hfit⟩

/-- The functions of `elf.c` keep the file and stay in the window exactly if the file starts
with the magic, does not end before its type and version, and has no segment that goes beyond
the extent of them all. -/
theorem elf_safe_iff (f : MemFile) (mem : AddrSpace) (addr : Nat) (haddr : addr < wordSize)
    (hapart : ∀ a < wordSize, f.Holds mem a → ¬f.InWindow mem addr a) :
    f.Safe mem addr ↔ f.Sound mem := by
  have hfuel : mem.ePhnum f.data ≤ 0x10000 + 0 := (mem.ePhnum_lt f.data).le
  constructor
  · intro h
    have hmagic : f.HasMagic mem := by
      intro k hk
      have hk4 : k < 4 := hk
      have hheader : f.Holds mem (add64 f.data k) := by
        refine Or.inr (Or.inl ?_)
        rw [sub64_add64 f.data_lt (hk4.trans (by decide))]
        omega
      rw [← h.check_intact _ (add64_lt _ _) hheader]
      exact checkElf_hasMagic f mem k hk
    refine ⟨hmagic, fun hversion htype => ?_, fun p hp => ?_⟩
    · exact (h.accepts.mp ((checkElf_fst f mem).mpr ⟨hversion, htype⟩)).size
    · have hinside := h.inside
      rw [hmagic.elfLoadSegment_eq] at hinside
      exact (fits_iff_staysIn hmagic haddr hp).mpr
        (staysIn_of_loadLoop hapart hfuel (fun _ _ _ => rfl) hinside p (mem_loads.mp hp).1)
  · intro h
    have hstays : ∀ p ∈ mem.phdrs f.data,
        StaysIn addr (elfPtLoadAddr mem f.data).1 (f.InWindow mem addr) p := fun p hp hload =>
      (fits_iff_staysIn h.magic haddr (mem_loads.mpr ⟨hp, hload⟩)).mp
        (h.fits p (mem_loads.mpr ⟨hp, hload⟩)) hload
    have hload : elfLoadSegment mem f.data addr =
        (mem.phdrs f.data).foldl (loadPhdr f.data addr (elfPtLoadAddr mem f.data).1)
          ⟨mem, []⟩ := by
      rw [h.magic.elfLoadSegment_eq]
      exact loadLoop_eq_foldl hapart hfuel (fun _ _ _ => rfl) hstays
    refine ⟨?_, ?_, ?_, ?_, ?_⟩
    · intro a _ _
      rw [h.magic.checkElf_eq]
    · intro a _ _
      rw [h.magic.elfLoadSize_eq]
    · intro a ha hfile
      rw [hload, foldl_mem_of_not_placed _ ha fun p hp hpload hplaced =>
        hapart a ha hfile (hstays p hp hpload a ha hplaced)]
    · rw [checkElf_fst]
      exact ⟨fun hfields => ⟨h.size hfields.1 hfields.2, h.magic, hfields.1, hfields.2⟩,
        fun helf => ⟨helf.version, helf.type⟩⟩
    · intro a ha
      rw [hload, mem_foldl_stored] at ha
      rcases ha with ⟨p, hp, hpload, hword, hplaced⟩ | hnil
      · exact hstays p hp hpload a hword hplaced
      · exact absurd hnil List.not_mem_nil

theorem smallFile_sound : smallFile.Sound smallMem where
  magic := by decide +kernel
  size := by
    intro _ _
    decide
  fits := by
    have hlo : IsLeast (smallFile.starts smallMem) 0x1000 := by
      simp only [IsLeast, starts, lowerBounds, smallFile_loads, List.mem_cons,
        List.not_mem_nil, or_false, Set.mem_ofPred_eq]
      grind
    have hhi : IsGreatest (smallFile.ends smallMem) 0x2004 := by
      simp only [IsGreatest, ends, upperBounds, smallFile_loads, add64, List.mem_cons,
        List.not_mem_nil, or_false, Set.mem_ofPred_eq]
      grind
    rw [smallFile_loads]
    intro p hp
    refine Or.inr ⟨_, _, hlo, hhi, ?_⟩
    revert p
    decide +kernel

theorem smallFile_safe : smallFile.Safe smallMem 0x100000 :=
  (elf_safe_iff smallFile smallMem 0x100000 (by decide) (fun _ ha hfile =>
    smallFile_apart ha (smallFile_size_of_holds ha hfile))).mpr smallFile_sound

end Bytes

/-- A file of zeros, but for the version and the type. -/
def blankFile : MemFile := ⟨0x1000, 64, by decide, by decide, by decide⟩

def blankMem : AddrSpace := fun a =>
  if a = 0x1000 + 16 then 3 else if a = 0x1000 + 20 then 1 else 0

/-- The check writes the magic into a file without one, and accepts it. -/
theorem blankFile_not_safe :
    (0x100000 < wordSize ∧ ∀ a < wordSize, blankFile.Holds blankMem a →
        ¬blankFile.InWindow blankMem 0x100000 a) ∧
      (checkElf blankMem blankFile.data).1 = true ∧ ¬blankFile.IsElf blankMem ∧
      ¬blankFile.Safe blankMem 0x100000 := by
  have hsize : (elfLoadSize blankMem blankFile.data).1 = 1 := by decide +kernel
  have hphnum : blankMem.ePhnum blankFile.data = 0 := by decide +kernel
  have hcheck : (checkElf blankMem blankFile.data).1 = true := by decide +kernel
  have hnot : ¬blankFile.IsElf blankMem := fun h =>
    absurd (h.magic 0 (by decide)) (by decide +kernel)
  refine ⟨⟨by decide, ?_⟩, hcheck, hnot, fun h => hnot (h.accepts.mp hcheck)⟩
  intro a ha hfile
  rw [InWindow, hsize]
  rw [Holds, hphnum] at hfile
  have hdata : sub64 a 0x1000 < 64 := by
    rcases hfile with h | h | h
    · exact h
    · exact h
    · exact absurd h (Nat.not_lt_zero _)
  unfold sub64 wordSize at *
  omega

/-! ## Images -/

/-- An image with the magic and its headers in the file, whose segments are apart from each
other, have all their bytes in the file and no more of them than in memory. -/
structure WellFormed (f : MemFile) (mem : AddrSpace) : Prop where
  magic : f.HasMagic mem
  header : 64 ≤ f.size
  table : mem.ePhoff f.data + 56 * mem.ePhnum f.data ≤ f.size
  filesz : ∀ p ∈ f.loads mem, p.pFilesz ≤ p.pMemsz
  bounded : ∀ p ∈ f.loads mem, p.pVaddr + p.pMemsz < wordSize
  inFile : ∀ p ∈ f.loads mem, p.pOffset + p.pFilesz ≤ f.size
  disjoint : (f.loads mem).Pairwise fun p q => ∀ a, p.pVaddr ≤ a → a < p.pVaddr + p.pMemsz →
    q.pVaddr ≤ a → ¬a < q.pVaddr + q.pMemsz

/-- A load leaves everything outside of its window, stores to the window only, and puts every
segment in its place relative to the lowest one: the bytes of the file, then zeros. -/
structure Loaded (f : MemFile) (mem : AddrSpace) (addr : Nat) (s : Store) : Prop where
  outside : ∀ a < wordSize, ¬f.InWindow mem addr a → s.mem a = mem a
  inside : ∀ a ∈ s.stored, f.InWindow mem addr a
  placed : ∀ lo, IsLeast (f.starts mem) lo → ∀ p ∈ f.loads mem, ∀ d < p.pMemsz,
    s.mem (add64 addr (p.pVaddr - lo + d)) =
      if d < p.pFilesz then mem (add64 f.data (p.pOffset + d)) else 0

section Segments

variable {data addr addrLo : Nat} {s : Store}

/-- One segment whose bytes in the file are apart from its place. -/
theorem loadPhdr_mem {p : Elf64Phdr} (hp : p.pType = ptLoad) (hfilesz : p.pFilesz ≤ p.pMemsz)
    (hword : p.pMemsz < wordSize)
    (hsource : ∀ d < p.pFilesz, ¬PlacedAt addr addrLo p (add64 data (p.pOffset + d)))
    {d : Nat} (hd : d < p.pMemsz) :
    (loadPhdr data addr addrLo s p).mem (add64 (relocateAddr addr addrLo p) d) =
      if d < p.pFilesz then s.mem (add64 data (p.pOffset + d)) else 0 := by
  have hdst := relocateAddr_lt addr addrLo p
  have hdist : sub64 (add64 (relocateAddr addr addrLo p) d) (relocateAddr addr addrLo p) = d :=
    sub64_add64 hdst (hd.trans hword)
  rw [loadPhdr_of_load hp]
  by_cases hfile : d < p.pFilesz
  · have hapart : ∀ e < p.pFilesz,
        ¬sub64 (add64 (add64 data p.pOffset) e) (relocateAddr addr addrLo p) < p.pFilesz := by
      intro e he hin
      rw [add64_add64] at hin
      exact hsource e he (lt_max_of_lt_right hin)
    have hout : ¬sub64 (add64 data (p.pOffset + d)) (relocateAddr addr addrLo p) <
        p.pMemsz := fun hin => hsource d hfile (lt_max_of_lt_left hin)
    rw [if_pos hfile, Store.memcpy_mem _ (hfilesz.trans hword.le) hdst (add64_lt _ _) hapart
      hfile, add64_add64 data, Store.memset_mem _ _ _ (add64_lt _ _) hdst, if_neg hout]
  · have hin : sub64 (add64 (relocateAddr addr addrLo p) d) (relocateAddr addr addrLo p) <
        p.pMemsz := by rwa [hdist]
    rw [if_neg hfile, Store.memcpy_mem_of_not_lt _ (add64_lt _ _) hdst (by rwa [hdist]),
      Store.memset_mem _ _ _ (add64_lt _ _) hdst, if_pos hin]
    rfl

/-- Segments apart from each other and from the file, in any order. -/
theorem foldl_mem (ps : List Elf64Phdr)
    (hfilesz : ∀ p ∈ ps, p.pType = ptLoad → p.pFilesz ≤ p.pMemsz)
    (hword : ∀ p ∈ ps, p.pMemsz < wordSize)
    (hsource : ∀ p ∈ ps, p.pType = ptLoad → ∀ d < p.pFilesz, ∀ q ∈ ps, q.pType = ptLoad →
      ¬PlacedAt addr addrLo q (add64 data (p.pOffset + d)))
    (hdisjoint : ps.Pairwise fun p q => p.pType = ptLoad → q.pType = ptLoad →
      ∀ a < wordSize, PlacedAt addr addrLo p a → ¬PlacedAt addr addrLo q a)
    {p : Elf64Phdr} (hp : p ∈ ps) (hload : p.pType = ptLoad) {d : Nat} (hd : d < p.pMemsz) :
    (ps.foldl (loadPhdr data addr addrLo) s).mem (add64 (relocateAddr addr addrLo p) d) =
      if d < p.pFilesz then s.mem (add64 data (p.pOffset + d)) else 0 := by
  induction ps generalizing s with
  | nil => exact absurd hp List.not_mem_nil
  | cons q ps ih =>
      rw [List.pairwise_cons] at hdisjoint
      rw [List.foldl_cons]
      rcases List.mem_cons.mp hp with rfl | htail
      · -- the segments behind it leave its place
        have hplaced : PlacedAt addr addrLo p (add64 (relocateAddr addr addrLo p) d) := by
          rw [PlacedAt, sub64_add64 (relocateAddr_lt _ _ _) (hd.trans (hword p hp))]
          exact lt_max_of_lt_left hd
        rw [foldl_mem_of_not_placed ps (add64_lt _ _) fun q hq hqload =>
          hdisjoint.1 q hq hload hqload _ (add64_lt _ _) hplaced]
        exact loadPhdr_mem hload (hfilesz p hp hload) (hword p hp)
          (fun e he => hsource p hp hload e he p hp hload) hd
      · rw [ih (fun q hq => hfilesz q (List.mem_cons_of_mem _ hq))
          (fun q hq => hword q (List.mem_cons_of_mem _ hq))
          (fun p hp hpload e he q hq => hsource p (List.mem_cons_of_mem _ hp) hpload e he q
            (List.mem_cons_of_mem _ hq)) hdisjoint.2 htail]
        by_cases hfile : d < p.pFilesz
        · rw [if_pos hfile, if_pos hfile, loadPhdr_mem_of_not_placed (add64_lt _ _) fun hqload =>
            hsource p hp hload d hfile q List.mem_cons_self hqload]
        · rw [if_neg hfile, if_neg hfile]

end Segments

section Image

variable {f : MemFile} {mem : AddrSpace} {addr : Nat}

theorem size_lt_wordSize (f : MemFile) : f.size < wordSize := by
  have hend := f.end_le
  have hdata := f.data_ne_zero
  unfold wordSize at *
  omega

/-- The headers of an image lie in the file. -/
theorem WellFormed.size_of_holds (h : f.WellFormed mem) {a : Nat} (ha : a < wordSize)
    (hfile : f.Holds mem a) : sub64 a f.data < f.size := by
  have hsize := f.size_lt_wordSize
  rcases hfile with hfile | hheader | htable
  · exact hfile
  · exact hheader.trans_le h.header
  · have htable' := h.table
    rw [AddrSpace.phdrTable, sub64_add64_lt ha f.data_lt (h.table.trans hsize.le)] at htable
    exact htable.2.trans_le htable'

theorem WellFormed.max_size (h : f.WellFormed mem) {p : Elf64Phdr} (hp : p ∈ f.loads mem) :
    max p.pMemsz p.pFilesz = p.pMemsz :=
  max_eq_left (h.filesz p hp)

/-- Every segment of an image ends within the extent. -/
theorem WellFormed.fits (h : f.WellFormed mem) {p : Elf64Phdr} (hp : p ∈ f.loads mem) :
    f.Fits mem p := by
  have hlo := isLeast_lo ⟨p, hp⟩
  have hhi := isGreatest_hi ⟨p, hp⟩
  refine Or.inr ⟨_, _, hlo, hhi, ?_⟩
  have hstart := hlo.2 ⟨p, hp, rfl⟩
  have hend := hhi.2 ⟨p, hp, rfl⟩
  rw [add64_of_lt (h.bounded p hp)] at hend
  have hword : (elfPtLoadAddr mem f.data).2 < wordSize := by
    obtain ⟨q, hq, heq⟩ := hhi.1
    rw [← heq]
    exact add64_lt _ _
  rw [h.max_size hp, sub64_of_le (by omega) hword]
  omega

/-- A segment of an image is where its addresses are, by their distance from the lowest. -/
theorem WellFormed.placedAt_iff (h : f.WellFormed mem) (haddr : addr < wordSize)
    {p : Elf64Phdr} (hp : p ∈ f.loads mem) {a : Nat} (ha : a < wordSize) :
    PlacedAt addr (elfPtLoadAddr mem f.data).1 p a ↔
      p.pVaddr ≤ (elfPtLoadAddr mem f.data).1 + sub64 a addr ∧
        (elfPtLoadAddr mem f.data).1 + sub64 a addr < p.pVaddr + p.pMemsz := by
  have hlo := isLeast_lo ⟨p, hp⟩
  have hstart := hlo.2 ⟨p, hp, rfl⟩
  have hword := h.bounded p hp
  rw [PlacedAt, relocateAddr, sub64_lo hp hlo, h.max_size hp,
    sub64_add64_lt ha haddr (by omega)]
  omega

/-- A load of an image with a window apart from the file puts every segment in its place and
changes nothing else, in whatever order the headers are. -/
theorem elfLoadSegment_loaded (f : MemFile) (mem : AddrSpace) (addr : Nat)
    (haddr : addr < wordSize) (h : f.WellFormed mem)
    (hapart : ∀ a < wordSize, sub64 a f.data < f.size → ¬f.InWindow mem addr a) :
    f.Loaded mem addr (elfLoadSegment mem f.data addr) := by
  have hfile : ∀ a < wordSize, f.Holds mem a → ¬f.InWindow mem addr a := fun a ha hin =>
    hapart a ha (h.size_of_holds ha hin)
  have hstays : ∀ p ∈ mem.phdrs f.data,
      StaysIn addr (elfPtLoadAddr mem f.data).1 (f.InWindow mem addr) p := fun p hp hload =>
    (fits_iff_staysIn h.magic haddr (mem_loads.mpr ⟨hp, hload⟩)).mp
      (h.fits (mem_loads.mpr ⟨hp, hload⟩)) hload
  have hload : elfLoadSegment mem f.data addr =
      (mem.phdrs f.data).foldl (loadPhdr f.data addr (elfPtLoadAddr mem f.data).1)
        ⟨mem, []⟩ := by
    rw [h.magic.elfLoadSegment_eq]
    exact loadLoop_eq_foldl hfile (mem.ePhnum_lt f.data).le (fun _ _ _ => rfl) hstays
  rw [hload]
  refine ⟨?_, ?_, ?_⟩
  · intro a ha hout
    exact foldl_mem_of_not_placed _ ha fun p hp hpload hplaced =>
      hout (hstays p hp hpload a ha hplaced)
  · intro a ha
    rw [mem_foldl_stored] at ha
    rcases ha with ⟨p, hp, hpload, hword, hplaced⟩ | hnil
    · exact hstays p hp hpload a hword hplaced
    · exact absurd hnil List.not_mem_nil
  · intro lo hlo p hp d hd
    obtain rfl := hlo.unique (isLeast_lo ⟨p, hp⟩)
    rw [← sub64_lo hp hlo, ← add64_add64]
    apply foldl_mem (mem.phdrs f.data) (s := ⟨mem, []⟩)
    · exact fun q hq hqload => h.filesz q (mem_loads.mpr ⟨hq, hqload⟩)
    · intro q hq
      obtain ⟨i, -, rfl⟩ := AddrSpace.mem_phdrs.mp hq
      exact mem.pMemsz_lt _ i
    · -- the bytes of the file are apart from the window that holds every place
      intro q hq hqload e he r hr hrload hplaced
      refine hapart _ (add64_lt _ _) ?_ (hstays r hr hrload _ (add64_lt _ _) hplaced)
      have hend := h.inFile q (mem_loads.mpr ⟨hq, hqload⟩)
      have hsize := f.size_lt_wordSize
      rw [sub64_add64 f.data_lt (by omega)]
      omega
    · apply (List.pairwise_filter.mp h.disjoint).imp_of_mem
      intro q r hq hr hapartqr hqload hrload a ha hqa hra
      rw [h.placedAt_iff haddr (mem_loads.mpr ⟨hq, hqload⟩) ha] at hqa
      rw [h.placedAt_iff haddr (mem_loads.mpr ⟨hr, hrload⟩) ha] at hra
      exact hapartqr (decide_eq_true hqload) (decide_eq_true hrload) _ hqa.1 hqa.2 hra.1 hra.2
    · exact (mem_loads.mp hp).1
    · exact (mem_loads.mp hp).2
    · exact hd

theorem smallFile_wellFormed : smallFile.WellFormed smallMem where
  magic := by decide +kernel
  header := by decide
  table := by decide +kernel
  filesz := by
    rw [smallFile_loads]
    decide
  bounded := by
    rw [smallFile_loads]
    decide
  inFile := by
    rw [smallFile_loads]
    decide
  disjoint := by
    rw [smallFile_loads, List.pairwise_pair]
    intro a
    dsimp only
    omega

theorem smallFile_loaded :
    smallFile.Loaded smallMem 0x100000 (elfLoadSegment smallMem smallFile.data 0x100000) :=
  elfLoadSegment_loaded smallFile smallMem 0x100000 (by decide) smallFile_wellFormed
    fun _ ha hfile => smallFile_apart ha hfile

end Image

end MemFile

end ClayFigure
