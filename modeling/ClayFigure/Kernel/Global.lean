/-
# Constants and status codes of the kernel

The names every later module shares: the status codes of `kernel/global.h`, the
page sizes of `mem/page.h`, and unsigned 64-bit arithmetic. Machine words are
natural numbers; an operation that may leave the word range wraps explicitly.
-/

import Mathlib.Tactic.NormNum

namespace ClayFigure

/-- The `K_*` codes a kernel function returns. -/
inductive Status
  | kSuccess
  | kError
  | kNomem
  | kNosupport
  | kHwNosupport
  | kDeadlock
  | kInvalidParam
  | kInvaildAddr
  | kOutOfResource
  | kNotFound
  | kTimeout
  deriving DecidableEq, Repr

/-- The `SYSCALL_*` codes a system call returns. -/
inductive SyscallStatus
  | success
  | error
  | noSyscall
  | deadlock
  | destNotExist
  | srcNotExist
  deriving DecidableEq, Repr

/-- `PG_SIZE`: a page and a physical frame are 2 MiB. -/
abbrev pgSize : Nat := 0x200000

/-- `PT_SIZE`: one page table is 4 KiB. -/
abbrev ptSize : Nat := 0x1000

/-- `PAGE_BITMAP_BYTES_LEN`: bytes of the static frame bitmap. -/
abbrev pageBitmapBytesLen : Nat := 2048

/-- `KERNEL_VMA_BASE`: physical memory is mapped from here on. -/
abbrev kernelVmaBase : Nat := 0xffff800000000000

/-- `TASKS`: the slots of the task table, and the pids. -/
abbrev numTasks : Nat := 4096

/-- A slot of the task table. -/
abbrev Slot : Type := Fin numTasks

instance : NeZero numTasks := ⟨by decide⟩

/-- `PID_NO_TASK`: the pid of a slot that is not in use. -/
abbrev pidNoTask : Nat := numTasks

/-- `uint8_t`. -/
abbrev Byte : Type := UInt8

/-- The number of values of a 64-bit word. -/
abbrev wordSize : Nat := 0x10000000000000000

/-- Unsigned 64-bit addition. -/
def add64 (a b : Nat) : Nat := (a + b) % wordSize

/-- Unsigned 64-bit subtraction; a borrow wraps. -/
def sub64 (a b : Nat) : Nat := (a + wordSize - b) % wordSize

/-- The number of values of a 32-bit word. -/
abbrev wordSize32 : Nat := 0x100000000

/-- Unsigned 32-bit addition. -/
def add32 (a b : Nat) : Nat := (a + b) % wordSize32

/-- Unsigned 32-bit subtraction; a borrow wraps. -/
def sub32 (a b : Nat) : Nat := (a + wordSize32 - b) % wordSize32

/-- Unsigned 32-bit multiplication. -/
def mul32 (a b : Nat) : Nat := a * b % wordSize32

theorem add64_of_lt {a b : Nat} (h : a + b < wordSize) : add64 a b = a + b :=
  Nat.mod_eq_of_lt h

theorem sub64_of_le {a b : Nat} (hle : b ≤ a) (hlt : a < wordSize) :
    sub64 a b = a - b := by
  unfold sub64 wordSize at *
  omega

theorem add64_lt (a b : Nat) : add64 a b < wordSize :=
  Nat.mod_lt _ (by decide)

theorem sub64_lt (a b : Nat) : sub64 a b < wordSize :=
  Nat.mod_lt _ (by decide)

end ClayFigure
