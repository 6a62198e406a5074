/-
# A fifo between tasks

`fifo_write` and `fifo_read` test whether there is room, or an item, before they take the
lock, and do not test again behind it. Other tasks may run in between. The results say what
the test has to be worth when the lock is taken, and that anything less shows at once.
-/

import Mathlib.Data.List.Nodup
import Mathlib.Logic.Function.Basic
import ClayFigure.Lib.Fifo
import ClayFigure.Math.Transition

namespace ClayFigure

open ClayFigure.Math

/-- Where a task is: in a call it has passed the test and has still to take the lock. -/
inductive FifoPc
  | idle
  | writing (item : Nat → Byte)
  | reading (item : Nat → Byte)

/-- Tasks with a fifo. Items are numbered as they are stored: `stored` are their bytes,
`held` the item last stored at each index, and `returned` what each read took. -/
structure FifoTasks (τ : Type) where
  fifo : Fifo
  pc : τ → FifoPc
  stored : List (List Byte)
  held : Nat → Option Nat
  returned : List (Option Nat)

/-- A task begins a call, or goes on with the one it is in. -/
inductive FifoTasksCall (τ : Type)
  | write (p : τ) (item : Option (Nat → Byte))
  | read (p : τ) (item : Option (Nat → Byte))
  | body (p : τ)

namespace FifoTasks

variable {τ : Type} [DecidableEq τ]

def setPc (s : FifoTasks τ) (p : τ) (pc : FifoPc) : FifoTasks τ :=
  { s with pc := Function.update s.pc p pc }

/-- The locked part of `fifo_write`. -/
def write (s : FifoTasks τ) (p : τ) (item : Nat → Byte) : FifoTasks τ where
  fifo := s.fifo.writeBody item
  pc := Function.update s.pc p .idle
  stored := s.stored ++ [loadBytes (asSize s.fifo.itemSize) item]
  held := Function.update s.held s.fifo.nextWrite.toNat (some s.stored.length)
  returned := s.returned

/-- The locked part of `fifo_read`. -/
def read (s : FifoTasks τ) (p : τ) (item : Nat → Byte) : FifoTasks τ where
  fifo := (s.fifo.readBody item).2
  pc := Function.update s.pc p .idle
  stored := s.stored
  held := s.held
  returned := s.returned ++ [s.held s.fifo.nextRead.toNat]

end FifoTasks

/-- One step; a call whose test fails returns at once. -/
def fifoTasksStep {τ : Type} [DecidableEq τ] (s : FifoTasks τ) :
    FifoTasksCall τ → Option (FifoTasks τ)
  | .write p item =>
      match s.pc p, item with
      | .idle, none => some s
      | .idle, some item => if s.fifo.free = 0 then some s else some (s.setPc p (.writing item))
      | _, _ => none
  | .read p item =>
      match s.pc p, item with
      | .idle, none => some s
      | .idle, some item =>
          if s.fifo.free = s.fifo.size then some s else some (s.setPc p (.reading item))
      | _, _ => none
  | .body p =>
      match s.pc p with
      | .idle => none
      | .writing item => some (s.write p item)
      | .reading item => some (s.read p item)

namespace FifoTasks

variable {τ : Type} [DecidableEq τ] {s t u : FifoTasks τ} {p : τ} {item : Nat → Byte}

end FifoTasks

/-- A fifo that `init_fifo` has just set up. -/
structure FifoTasksInit {τ : Type} (itemSize size : Nat) (s : FifoTasks τ) : Prop where
  fifo : ∃ data, s.fifo = initFifo data itemSize size
  pc : ∀ p, s.pc p = .idle
  stored : s.stored = []
  returned : s.returned = []

def fifoSystem (τ : Type) [DecidableEq τ] (itemSize size : Nat) :
    System (FifoTasks τ) (FifoTasksCall τ) :=
  ⟨FifoTasksInit itemSize size, fun s c t => fifoTasksStep s c = some t⟩

namespace FifoTasks

variable {τ : Type}

/-- The count is in its range, the bytes of an item that nobody has read are still there,
and no two reads took the same item. -/
structure Safe (s : FifoTasks τ) (itemSize size : Nat) : Prop where
  free : 0 ≤ s.fifo.free ∧ s.fifo.free ≤ size
  kept : ∀ n (hn : n < s.stored.length), some n ∉ s.returned →
    ∃ i < size, s.held i = some n ∧ s.fifo.cell itemSize i = s.stored[n]
  once : s.returned.Nodup
  stored : none ∉ s.returned

/-- Where a task takes the lock, what it tested before still holds. -/
def TestHolds (s : FifoTasks τ) : FifoTasksCall τ → Prop
  | .body p =>
      match s.pc p with
      | .idle => True
      | .writing _ => s.fifo.free ≠ 0
      | .reading _ => s.fifo.free ≠ s.fifo.size
  | _ => True

/-- The items from the first unread one on, by their numbers. -/
def unread (s : FifoTasks τ) : List (Option Nat) :=
  (List.range' s.returned.length (s.stored.length - s.returned.length)).map some

/-- The reads so far took the items in order, and the rest is in the fifo. -/
structure Inv (s : FifoTasks τ) (itemSize size : Nat) : Prop where
  bytes : s.fifo.Holds itemSize size (s.stored.drop s.returned.length)
  numbers : Circular s.held size s.fifo.nextRead.toNat s.unread
  returned : s.returned = (List.range s.returned.length).map some
  le : s.returned.length ≤ s.stored.length

variable {s t : FifoTasks τ} {itemSize size : Nat}

theorem Inv.of_init (h : FifoTasksInit itemSize size s) (hfit : Fifo.OffsetsFit itemSize size)
    (hpos : 0 < size) : s.Inv itemSize size := by
  obtain ⟨data, hfifo⟩ := h.fifo
  refine ⟨?_, ?_, ?_, ?_⟩
  · rw [hfifo, h.stored, List.drop_nil]
    exact .init data hfit hpos
  · rw [hfifo, unread, h.stored, h.returned]
    exact .nil hpos
  · rw [h.returned]
    rfl
  · rw [h.returned]
    exact Nat.zero_le _

/-- What a task does before it takes the lock. -/
theorem Inv.setPc [DecidableEq τ] (h : s.Inv itemSize size) (p : τ) (pc : FifoPc) :
    (s.setPc p pc).Inv itemSize size :=
  ⟨h.bytes, h.numbers, h.returned, h.le⟩

theorem length_drop (s : FifoTasks τ) :
    (s.stored.drop s.returned.length).length = s.unread.length := by
  rw [unread, List.length_map, List.length_range', List.length_drop]

theorem Inv.write [DecidableEq τ] (h : s.Inv itemSize size)
    (hfit : Fifo.OffsetsFit itemSize size) (hsize : size < 0x80000000)
    (hfree : s.fifo.free ≠ 0) (p : τ) (item : Nat → Byte) : (s.write p item).Inv itemSize size := by
  have hle := h.le
  have hitem := hfit.item
  have hroom : (s.stored.drop s.returned.length).length < size := by
    rwa [Ne, h.bytes.free_eq_zero_iff, not_not] at hfree
  have hloaded : asSize s.fifo.itemSize = itemSize := by
    rw [h.bytes.itemSizeEq, asSize_natCast (by unfold wordSize; omega)]
  have hbytes : (s.write p item).stored.drop (s.write p item).returned.length =
      s.stored.drop s.returned.length ++ [loadBytes itemSize item] := by
    rw [FifoTasks.write, hloaded, List.drop_append_of_le_length hle]
  have hunread : (s.write p item).unread = s.unread ++ [some s.stored.length] := by
    rw [unread, unread, FifoTasks.write, List.length_append, List.length_singleton,
      Nat.sub_add_comm hle, List.range'_concat, List.map_append, Nat.one_mul,
      Nat.add_sub_cancel' hle]
    rfl
  refine ⟨?_, ?_, h.returned, ?_⟩
  · rw [hbytes]
    exact h.bytes.writeBody hfit hsize hroom item
  · rw [hunread]
    have hindex : s.fifo.nextWrite.toNat =
        (s.fifo.nextRead.toNat + s.unread.length) % size := by
      rw [h.bytes.nextWrite, Int.toNat_natCast, s.length_drop]
    apply h.numbers.enqueue
    · rwa [← s.length_drop]
    · rw [← hindex]
      exact Function.update_self ..
    · intro i _ hne
      exact Function.update_of_ne (hindex ▸ hne) ..
  · rw [FifoTasks.write, List.length_append]
    exact Nat.le_add_right_of_le hle

theorem Inv.read [DecidableEq τ] (h : s.Inv itemSize size)
    (hfit : Fifo.OffsetsFit itemSize size) (hsize : size < 0x80000000)
    (hfree : s.fifo.free ≠ s.fifo.size) (p : τ) (item : Nat → Byte) :
    (s.read p item).Inv itemSize size := by
  rw [Ne, h.bytes.free_eq_size_iff, List.drop_eq_nil_iff, Nat.not_le] at hfree
  have hdrop := List.drop_eq_getElem_cons hfree
  have hunread : s.unread = some s.returned.length ::
      (List.range' (s.returned.length + 1)
        (s.stored.length - (s.returned.length + 1))).map some := by
    rw [unread, ← Nat.succ_sub_succ, Nat.succ_sub hfree, List.range'_succ, List.map_cons]
  have hbytes := h.bytes
  rw [hdrop] at hbytes
  have hnumbers := h.numbers
  rw [hunread] at hnumbers
  obtain ⟨hfirst, hrest⟩ := hnumbers.dequeue
  have hreturned : (s.read p item).returned = s.returned ++ [some s.returned.length] := by
    rw [FifoTasks.read, hfirst]
  have hlen : (s.read p item).returned.length = s.returned.length + 1 := by
    rw [hreturned, List.length_append, List.length_singleton]
  refine ⟨?_, ?_, ?_, ?_⟩
  · rw [hlen]
    exact (hbytes.readBody hfit hsize item).2
  · have hnext : (s.read p item).fifo.nextRead.toNat = (s.fifo.nextRead.toNat + 1) % size := by
      show ((asInt (s.fifo.nextRead + 1)).tmod s.fifo.size).toNat = _
      rw [h.bytes.sizeEq, ← Int.toNat_of_nonneg h.bytes.nextRead,
        Fifo.next_eq h.bytes.cells.inside hsize]
      rfl
    rw [hnext, unread, hlen]
    exact hrest
  · rw [hlen, hreturned, List.range_succ, List.map_append, ← h.returned]
    rfl
  · rw [hlen]
    exact hfree

theorem Inv.step [DecidableEq τ] (h : s.Inv itemSize size)
    (hfit : Fifo.OffsetsFit itemSize size) (hsize : size < 0x80000000) {c : FifoTasksCall τ}
    (htest : s.TestHolds c) (hstep : fifoTasksStep s c = some t) : t.Inv itemSize size := by
  cases c with
  | write p item =>
      simp only [fifoTasksStep] at hstep
      split at hstep
      · cases hstep
        exact h
      · split at hstep
        · cases hstep
          exact h
        · cases hstep
          exact h.setPc p _
      · cases hstep
  | read p item =>
      simp only [fifoTasksStep] at hstep
      split at hstep
      · cases hstep
        exact h
      · split at hstep
        · cases hstep
          exact h
        · cases hstep
          exact h.setPc p _
      · cases hstep
  | body p =>
      simp only [fifoTasksStep] at hstep
      simp only [TestHolds] at htest
      cases hpc : s.pc p with
      | idle =>
          rw [hpc] at hstep
          cases hstep
      | writing item =>
          rw [hpc] at hstep htest
          cases hstep
          exact h.write hfit hsize htest p item
      | reading item =>
          rw [hpc] at hstep htest
          cases hstep
          exact h.read hfit hsize htest p item

theorem Inv.safe (h : s.Inv itemSize size) : s.Safe itemSize size := by
  have hbounded := h.bytes.cells.bounded
  have hpos : 0 < size := Nat.zero_lt_of_lt h.bytes.cells.inside
  refine ⟨?_, fun n hn hnot => ?_, ?_, ?_⟩
  · rw [h.bytes.freeEq]
    omega
  · have hlen : s.returned.length ≤ n := by
      rw [h.returned] at hnot
      simpa using hnot
    obtain ⟨k, rfl⟩ := Nat.exists_eq_add_of_le hlen
    have hk : k < (s.stored.drop s.returned.length).length := by
      rw [List.length_drop]
      omega
    have hnumber := h.numbers.cell k (s.length_drop ▸ hk)
    have hcell := h.bytes.cells.cell k hk
    refine ⟨(s.fifo.nextRead.toNat + k) % size, Nat.mod_lt _ hpos, ?_, ?_⟩
    · rw [hnumber]
      simp [unread]
    · rw [hcell, List.getElem_drop]
  · rw [h.returned]
    exact List.Nodup.map (Option.some_injective _) List.nodup_range
  · rw [h.returned]
    simp

/-- Without room a write leaves a negative count, without an item a read one that is too
large. -/
theorem Inv.not_safe [DecidableEq τ] (h : s.Inv itemSize size) (hsize : size < 0x80000000) {p : τ}
    (htest : ¬ s.TestHolds (.body p)) (hstep : fifoTasksStep s (.body p) = some t) :
    ¬ t.Safe itemSize size := by
  intro hsafe
  have hfree := hsafe.free
  simp only [fifoTasksStep] at hstep
  simp only [TestHolds] at htest
  cases hpc : s.pc p with
  | idle =>
      rw [hpc] at hstep
      cases hstep
  | writing item =>
      rw [hpc] at hstep htest
      cases hstep
      have hzero : s.fifo.free = 0 := not_not.mp htest
      change 0 ≤ asInt (s.fifo.free - 1) ∧ _ at hfree
      rw [hzero] at hfree
      exact absurd hfree.1 (by decide)
  | reading item =>
      rw [hpc] at hstep htest
      cases hstep
      have hfull : s.fifo.free = s.fifo.size := not_not.mp htest
      change 0 ≤ asInt (s.fifo.free + 1) ∧ asInt (s.fifo.free + 1) ≤ _ at hfree
      rw [hfull, h.bytes.sizeEq, asInt] at hfree
      omega

end FifoTasks

/-- As long as every task that takes the lock finds what it tested before, nothing goes
wrong; the first one that does not breaks the count. -/
theorem fifoSystem_safe {τ : Type} [DecidableEq τ] {itemSize size : Nat} {s : FifoTasks τ}
    (hfit : Fifo.OffsetsFit itemSize size) (hpos : 0 < size) (hsize : size < 0x80000000)
    (hreach : (fifoSystem τ itemSize size).ReachableWhen FifoTasks.TestHolds s) :
    s.Safe itemSize size ∧ ∀ p t, fifoTasksStep s (.body p) = some t →
      ¬ s.TestHolds (.body p) → ¬ t.Safe itemSize size := by
  have hinv : s.Inv itemSize size :=
    hreach.invariant (fun _ hinit => FifoTasks.Inv.of_init hinit hfit hpos)
      fun _ _ _ h htest hstep => FifoTasks.Inv.step h hfit hsize htest hstep
  exact ⟨hinv.safe, fun p t hstep htest => hinv.not_safe hsize htest hstep⟩

/-! ## Two writers -/

namespace FifoTasks

/-- A fifo for one byte. -/
def oneByte : FifoTasks Bool where
  fifo := initFifo (fun _ => 0) 1 1
  pc := fun _ => .idle
  stored := []
  held := fun _ => none
  returned := []

/-- Two tasks have seen that there is room; one of them has stored its byte. -/
def oneStored : FifoTasks Bool :=
  ((oneByte.setPc true (.writing fun _ => 1)).setPc false (.writing fun _ => 2)).write true
    fun _ => 1

theorem oneStored_reachable : (fifoSystem Bool 1 1).ReachableWhen TestHolds oneStored := by
  have hinit : (fifoSystem Bool 1 1).ReachableWhen TestHolds oneByte :=
    .init ⟨⟨_, rfl⟩, fun _ => rfl, rfl, rfl⟩
  have hfirst := hinit.step (a := FifoTasksCall.write true (some fun _ => 1)) trivial
    (show _ = some (oneByte.setPc true (.writing fun _ => 1)) from rfl)
  have hsecond := hfirst.step (a := FifoTasksCall.write false (some fun _ => 2)) trivial
    (show _ = some ((oneByte.setPc true (.writing fun _ => 1)).setPc false
      (.writing fun _ => 2)) from rfl)
  exact hsecond.step (a := FifoTasksCall.body true) (show (1 : Int) ≠ 0 by decide)
    (show _ = some oneStored from rfl)

/-- The other one stores its byte over it. -/
theorem oneStored_overwritten : oneStored.Safe 1 1 ∧
    ∃ t, fifoTasksStep oneStored (.body false) = some t ∧ ¬ t.Safe 1 1 := by
  obtain ⟨hsafe, hnot⟩ :=
    fifoSystem_safe ⟨by decide, by decide⟩ (by decide) (by decide) oneStored_reachable
  exact ⟨hsafe, _, rfl, hnot false _ rfl (not_not.mpr rfl)⟩

/-- Not every order of steps is safe. -/
theorem not_safe_twoWriters :
    ¬ ∀ s : FifoTasks Bool, (fifoSystem Bool 1 1).Reachable s → s.Safe 1 1 := by
  intro hall
  have hstored : (fifoSystem Bool 1 1).Reachable oneStored :=
    oneStored_reachable.mono fun _ _ _ => trivial
  have hboth := hstored.step (a := FifoTasksCall.body false) trivial
    (show _ = some (oneStored.write false fun _ => 2) from rfl)
  exact absurd (hall _ hboth).free.1 (by decide)

end FifoTasks

end ClayFigure
