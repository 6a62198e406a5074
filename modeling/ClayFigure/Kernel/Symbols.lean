/-
# Symbols by address

`tools/kallsyms.c` writes a table of addresses in ascending order and one of names. The search
compares an address with an entry and the one behind it, and so looks behind the table when it
comes to the last entry.
-/

import Mathlib.Data.Nat.Find
import Mathlib.Order.Bounds.Defs
import ClayFigure.Kernel.Global

namespace ClayFigure

/-! ## The code -/

/-- `kallsyms_address` and `kallsyms_symbols`, with an entry of each for every symbol. -/
structure Kallsyms where
  address : List Nat
  symbols : List String
  length_eq : symbols.length = address.length

/-- What `addr_to_symbol` and `index_to_symbol` return: the text `Invalid` or a symbol. -/
inductive SymbolText
  | invalid
  | symbol (name : String)
  deriving DecidableEq, Repr

namespace Kallsyms

/-- `kallsyms_count`. -/
def count (t : Kallsyms) : Nat := t.address.length

/-- The loop of `get_symbol_index_by_addr` from `i` on, with `left` entries to go: the status and
what is written to `index`; `none` is an access outside of the table. -/
def searchLoop (t : Kallsyms) (addr : Nat) : Nat → Nat → Option (Status × Option Nat)
  | 0, _ => some (.kError, none)
  | left + 1, i => do
      if (← t.address[i]?) ≤ addr then
        if addr < (← t.address[i + 1]?) then return (.kSuccess, some i)
        else searchLoop t addr left (i + 1)
      else searchLoop t addr left (i + 1)

/-- `get_symbol_index_by_addr`. -/
def getSymbolIndexByAddr (t : Kallsyms) (addr : Nat) : Option (Status × Option Nat) :=
  t.searchLoop addr t.count 0

/-- `index_to_symbol`. -/
def indexToSymbol (t : Kallsyms) (index : Nat) : Option SymbolText :=
  if index < t.count then t.symbols[index]?.map .symbol else some .invalid

/-- `index_to_addr`; 0 is `NULL`. -/
def indexToAddr (t : Kallsyms) (index : Nat) : Option Nat :=
  if index < t.count then t.address[index]? else some 0

end Kallsyms

/-- Where the linker puts the kernel: `_kernel_start` and `_kernel_end`. -/
structure KernelImage where
  kernelStart : Nat
  kernelEnd : Nat

/-- `is_available_symbol_address`. -/
def KernelImage.isAvailableSymbolAddress (kernel : KernelImage) (addr : Nat) : Bool :=
  kernel.kernelStart ≤ addr && addr ≤ kernel.kernelEnd

/-- `addr_to_symbol`. -/
def KernelImage.addrToSymbol (kernel : KernelImage) (t : Kallsyms) (addr : Nat) :
    Option SymbolText := do
  if kernel.isAvailableSymbolAddress addr then
    match ← t.getSymbolIndexByAddr addr with
    | (.kSuccess, some i) => t.symbols[i]?.map .symbol
    | _ => return .invalid
  else return .invalid

namespace Kallsyms

variable {t : Kallsyms} {addr : Nat}

/-! ## The search -/

/-- The entry of an index is at most the address. -/
def AtMost (t : Kallsyms) (addr i : Nat) : Prop := ∃ a, t.address[i]? = some a ∧ a ≤ addr

instance (t : Kallsyms) (addr : Nat) : DecidablePred (t.AtMost addr) := fun i =>
  match h : t.address[i]? with
  | none => isFalse fun hatMost => by
      obtain ⟨a, ha, -⟩ := hatMost
      cases h.symm.trans ha
  | some a => decidable_of_iff (a ≤ addr) ⟨fun hle => ⟨a, h, hle⟩, fun hatMost => by
      obtain ⟨a', ha', hle⟩ := hatMost
      rwa [Option.some.inj (h.symm.trans ha')]⟩

/-- The search passes the entries of which the next one is at most the address, too. -/
theorem searchLoop_found {k : Nat} (hbelow : ∀ j ≤ k, t.AtMost addr j) {b : Nat}
    (hnext : t.address[k + 1]? = some b) (hb : addr < b) {left i : Nat} (hi : i ≤ k)
    (hleft : k < i + left) : t.searchLoop addr left i = some (.kSuccess, some k) := by
  induction left generalizing i with
  | zero => exact absurd hleft (Nat.not_lt.mpr hi)
  | succ left ih =>
      obtain ⟨a, ha, hle⟩ := hbelow i hi
      simp only [searchLoop, ha, Option.bind_eq_bind, Option.bind_some, if_pos hle]
      rcases Nat.eq_or_lt_of_le hi with rfl | hlt
      · simp only [hnext, Option.bind_some, if_pos hb, Option.pure_def]
      · obtain ⟨a', ha', hle'⟩ := hbelow (i + 1) hlt
        simp only [ha', Option.bind_some, if_neg (Nat.not_lt.mpr hle')]
        exact ih hlt (by omega)

/-- The search ends behind the table when no entry is above the address. -/
theorem searchLoop_behind {left i : Nat} (hleft : i + (left + 1) = t.count)
    (hall : ∀ j < t.count, t.AtMost addr j) : t.searchLoop addr (left + 1) i = none := by
  induction left generalizing i with
  | zero =>
      obtain ⟨a, ha, hle⟩ := hall i (by omega)
      have hend : t.address[i + 1]? = none := List.getElem?_eq_none (Nat.le_of_eq hleft.symm)
      simp only [searchLoop, ha, hend, Option.bind_eq_bind, Option.bind_some, if_pos hle,
        Option.bind_none]
  | succ left ih =>
      obtain ⟨a, ha, hle⟩ := hall i (by omega)
      obtain ⟨a', ha', hle'⟩ := hall (i + 1) (by omega)
      rw [searchLoop, ha]
      simp only [ha', Option.bind_eq_bind, Option.bind_some, if_pos hle,
        if_neg (Nat.not_lt.mpr hle')]
      exact ih (by omega)

/-- In a table in ascending order, the entries below one that is at most the address are so, too. -/
theorem AtMost.of_le (hsorted : t.address.Pairwise (· ≤ ·)) {j k : Nat} (h : t.AtMost addr k)
    (hle : j ≤ k) : t.AtMost addr j := by
  obtain ⟨a, ha, hale⟩ := h
  obtain ⟨hk, rfl⟩ := List.getElem?_eq_some_iff.mp ha
  have hj : j < t.address.length := Nat.lt_of_le_of_lt hle hk
  refine ⟨t.address[j], List.getElem?_eq_getElem hj, Nat.le_trans ?_ hale⟩
  rcases Nat.eq_or_lt_of_le hle with rfl | hlt
  · exact Nat.le_refl _
  · exact List.pairwise_iff_getElem.mp hsorted j k hj hk hlt

/-- The greatest entry that is at most the address, if the last one is not. -/
theorem exists_greatest (hsorted : t.address.Pairwise (· ≤ ·)) (hfirst : t.AtMost addr 0)
    (hlast : ¬ t.AtMost addr (t.count - 1)) :
    ∃ k b, (∀ j ≤ k, t.AtMost addr j) ∧ t.address[k + 1]? = some b ∧ addr < b ∧
      k < t.count ∧ IsGreatest {i | t.AtMost addr i} k := by
  have hnone (j : Nat) (hj : t.count ≤ j) : ¬ t.AtMost addr j := by
    rintro ⟨a, ha, -⟩
    rw [List.getElem?_eq_none hj] at ha
    cases ha
  have hpos : 0 < t.count := Nat.pos_of_ne_zero fun h => hnone 0 (Nat.le_of_eq h) hfirst
  set k := Nat.findGreatest (t.AtMost addr) (t.count - 1)
  have hk : t.AtMost addr k := Nat.findGreatest_spec (Nat.zero_le _) hfirst
  have hklt : k < t.count - 1 := by
    refine Nat.lt_of_le_of_ne (Nat.findGreatest_le _) fun heq => ?_
    rw [heq] at hk
    exact hlast hk
  have hnext : k + 1 < t.address.length := Nat.add_lt_of_lt_sub hklt
  have habove : ¬ t.AtMost addr (k + 1) := Nat.findGreatest_is_greatest (Nat.lt_succ_self k) hklt
  have hentry := List.getElem?_eq_getElem hnext
  refine ⟨k, _, fun j hj => hk.of_le hsorted hj, hentry, ?_, by omega, hk, fun j hj => ?_⟩
  · exact Nat.lt_of_not_le fun hle => habove ⟨_, hentry, hle⟩
  · exact Nat.le_of_lt_succ (Nat.lt_of_not_le fun hle => habove (AtMost.of_le hsorted hj hle))

/-! ## What is found -/

/-- The search stays in the table and finds the greatest index of an entry that is at most the
address, and `addr_to_symbol` names the symbol of this index. -/
def Named (kernel : KernelImage) (t : Kallsyms) (addr : Nat) : Prop :=
  ∃ i name, t.getSymbolIndexByAddr addr = some (.kSuccess, some i) ∧ i < t.count ∧
    IsGreatest {i | t.AtMost addr i} i ∧ t.symbols[i]? = some name ∧
    kernel.addrToSymbol t addr = some (.symbol name)

/-- In a table in ascending order, an address from the first entry up to the end of the kernel is
found and named exactly if it is below the last entry and `addr_to_symbol` takes it for one of the
kernel at all: the search has no entry to compare the last one with. -/
theorem named_iff {kernel : KernelImage} (hsorted : t.address.Pairwise (· ≤ ·))
    (hfirst : t.AtMost addr 0) (hend : addr ≤ kernel.kernelEnd) :
    Named kernel t addr ↔
      (∃ last, t.address.getLast? = some last ∧ addr < last) ∧ kernel.kernelStart ≤ addr := by
  have hpos : 0 < t.count := by
    obtain ⟨a, ha, -⟩ := hfirst
    exact (List.getElem?_eq_some_iff.mp ha).1
  -- The last entry.
  obtain ⟨last, hlast⟩ : ∃ last, t.address[t.count - 1]? = some last :=
    ⟨_, List.getElem?_eq_getElem (Nat.sub_one_lt_of_lt hpos)⟩
  have hlast_iff : (∃ last, t.address.getLast? = some last ∧ addr < last) ↔
      ¬ t.AtMost addr (t.count - 1) := by
    have hget : t.address.getLast? = some last := List.getLast?_eq_getElem?.trans hlast
    simp only [hget, AtMost, hlast, Option.some_inj, exists_eq_left', Nat.not_le]
  rw [hlast_iff]
  constructor
  · rintro ⟨i, name, hsearch, hi, hgreatest, hname, hsymbol⟩
    refine ⟨fun hbelow => ?_, ?_⟩
    · have hall (j : Nat) (hj : j < t.count) : t.AtMost addr j :=
        hbelow.of_le hsorted (Nat.le_sub_one_of_lt hj)
      obtain ⟨left, hleft⟩ := Nat.exists_eq_add_of_lt hpos
      rw [getSymbolIndexByAddr, hleft, Nat.zero_add,
        searchLoop_behind ((Nat.zero_add _).trans (hleft.trans (by omega)).symm) hall] at hsearch
      cases hsearch
    · refine Nat.le_of_not_lt fun hlt => ?_
      have hguard : ¬ kernel.isAvailableSymbolAddress addr = true := by
        simp only [KernelImage.isAvailableSymbolAddress, Bool.and_eq_true, decide_eq_true_eq]
        omega
      rw [KernelImage.addrToSymbol, if_neg hguard] at hsymbol
      cases hsymbol
  · rintro ⟨hnot, hstart⟩
    obtain ⟨k, b, hbelow, hnext, hb, hk, hgreatest⟩ := exists_greatest hsorted hfirst hnot
    have hsearch : t.getSymbolIndexByAddr addr = some (.kSuccess, some k) :=
      searchLoop_found hbelow hnext hb (Nat.zero_le k) (by omega)
    have hname : ∃ name, t.symbols[k]? = some name :=
      ⟨_, List.getElem?_eq_getElem (t.length_eq.symm ▸ hk)⟩
    obtain ⟨name, hname⟩ := hname
    have hguard : kernel.isAvailableSymbolAddress addr = true := by
      simp only [KernelImage.isAvailableSymbolAddress, Bool.and_eq_true, decide_eq_true_eq]
      exact ⟨hstart, hend⟩
    refine ⟨k, name, hsearch, hk, hgreatest, hname, ?_⟩
    simp only [KernelImage.addrToSymbol, if_pos hguard, hsearch, Option.bind_eq_bind,
      Option.bind_some, hname, Option.map_some]

/-- What the backtrace prints of an address that is found: the same name, and an entry to subtract
from the address. -/
theorem Named.backtrace {kernel : KernelImage} (h : Named kernel t addr) :
    ∃ i, t.getSymbolIndexByAddr addr = some (.kSuccess, some i) ∧
      t.indexToSymbol i = kernel.addrToSymbol t addr ∧
      ∃ a, t.indexToAddr i = some a ∧ a ≤ addr := by
  obtain ⟨i, name, hsearch, hi, ⟨⟨a, ha, hle⟩, -⟩, hname, hsymbol⟩ := h
  refine ⟨i, hsearch, ?_, a, ?_, hle⟩
  · rw [indexToSymbol, if_pos hi, hname, hsymbol, Option.map_some]
  · rw [indexToAddr, if_pos hi, ha]

/-- A kernel of 2 MiB. -/
def smallKernel : KernelImage := ⟨0xffffffff80100000, 0xffffffff80300000⟩

/-- Two functions. -/
def twoSymbols : Kallsyms where
  address := [0xffffffff80100000, 0xffffffff80100040]
  symbols := ["_start", "kernel_main"]
  length_eq := rfl

theorem twoSymbols_named : Named smallKernel twoSymbols 0xffffffff80100004 :=
  (named_iff (by decide) ⟨_, rfl, by decide⟩ (by decide)).mpr ⟨⟨_, rfl, by decide⟩, by decide⟩

/-- An address in the last function. -/
theorem twoSymbols_not_named : ¬ Named smallKernel twoSymbols 0xffffffff80100044 := by
  rintro ⟨i, name, hsearch, -⟩
  have hbehind : twoSymbols.getSymbolIndexByAddr 0xffffffff80100044 = none := by decide
  cases hbehind.symm.trans hsearch

end Kallsyms

end ClayFigure
