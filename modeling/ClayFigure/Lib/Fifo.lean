/-
# The fifo

`lib/fifo.c`: items of a fixed size, copied into a circular area of bytes and out of it. All
fields are of type `int`, the product that locates an item included, so an area can be too
large for them. Where it is not, the fifo is a bounded queue.
-/

import ClayFigure.Kernel.Global
import ClayFigure.Math.Queue

namespace ClayFigure

open ClayFigure.Math

/-! ## The code -/

/-- What an `int` holds of a number. -/
def asInt (x : Int) : Int := (x + 0x80000000) % 0x100000000 - 0x80000000

/-- An `int` converted to `size_t`. -/
def asSize (x : Int) : Nat := (x % wordSize).toNat

/-- `memcpy` to `offset` of the area. -/
def copyIn (data : Int → Byte) (offset : Int) (item : Nat → Byte) (n : Nat) : Int → Byte :=
  fun a => if offset ≤ a ∧ a < offset + n then item (a - offset).toNat else data a

/-- `memcpy` from `offset` of the area. -/
def copyOut (item : Nat → Byte) (data : Int → Byte) (offset : Int) (n : Nat) : Nat → Byte :=
  fun i => if i < n then data (offset + i) else item i

/-- `fifo_t`; `data` is memory as seen from the pointer of that name. -/
structure Fifo where
  data : Int → Byte
  itemSize : Int
  size : Int
  free : Int
  nextRead : Int
  nextWrite : Int

/-- `init_fifo`. -/
def initFifo (data : Int → Byte) (itemSize : Nat) (size : Int) : Fifo where
  data := data
  itemSize := asInt itemSize
  size := size
  free := size
  nextRead := 0
  nextWrite := 0

namespace Fifo

/-- `item_size * i`. -/
def offset (f : Fifo) (i : Int) : Int := asInt (f.itemSize * i)

/-- The locked part of `fifo_write`. -/
def writeBody (f : Fifo) (item : Nat → Byte) : Fifo :=
  { f with
    free := asInt (f.free - 1)
    data := copyIn f.data (f.offset f.nextWrite) item (asSize f.itemSize)
    nextWrite := (asInt (f.nextWrite + 1)).tmod f.size }

/-- `fifo_write`; `none` is `NULL`. -/
def fifoWrite (f : Fifo) (item : Option (Nat → Byte)) : Status × Fifo :=
  match item with
  | none => (.kInvaildAddr, f)
  | some item => if f.free = 0 then (.kOutOfResource, f) else (.kSuccess, f.writeBody item)

/-- The locked part of `fifo_read`: the caller's item and the fifo afterwards. -/
def readBody (f : Fifo) (item : Nat → Byte) : (Nat → Byte) × Fifo :=
  (copyOut item f.data (f.offset f.nextRead) (asSize f.itemSize),
    { f with
      free := asInt (f.free + 1)
      nextRead := (asInt (f.nextRead + 1)).tmod f.size })

/-- `fifo_read`; `none` is `NULL`. -/
def fifoRead (f : Fifo) (item : Option (Nat → Byte)) : Status × Option (Nat → Byte) × Fifo :=
  match item with
  | none => (.kInvaildAddr, none, f)
  | some item =>
      if f.free = f.size then (.kOutOfResource, some item, f)
      else (.kSuccess, some (f.readBody item).1, (f.readBody item).2)

theorem fifoWrite_of_room {f : Fifo} (hfree : f.free ≠ 0) (item : Nat → Byte) :
    f.fifoWrite (some item) = (.kSuccess, f.writeBody item) := if_neg hfree

theorem fifoWrite_of_full {f : Fifo} (hfree : f.free = 0) (item : Nat → Byte) :
    f.fifoWrite (some item) = (.kOutOfResource, f) := if_pos hfree

theorem fifoRead_of_item {f : Fifo} (hfree : f.free ≠ f.size) (item : Nat → Byte) :
    f.fifoRead (some item) = (.kSuccess, some (f.readBody item).1, (f.readBody item).2) :=
  if_neg hfree

theorem fifoRead_of_empty {f : Fifo} (hfree : f.free = f.size) (item : Nat → Byte) :
    f.fifoRead (some item) = (.kOutOfResource, some item, f) := if_pos hfree

def fifoEmpty (f : Fifo) : Bool := f.free = f.size

def fifoFull (f : Fifo) : Bool := f.free = 0

end Fifo

/-- A call, with the memory the pointer shows the callee. -/
inductive FifoCall
  | write (item : Option (Nat → Byte))
  | read (item : Option (Nat → Byte))
  | empty
  | full

/-- What a call leaves the caller with: a status and the item, or an answer. -/
inductive FifoReply
  | status (code : Status) (item : Option (Nat → Byte))
  | answer (b : Bool)

def Fifo.call (f : Fifo) : FifoCall → FifoReply × Fifo
  | .write item => (.status (f.fifoWrite item).1 item, (f.fifoWrite item).2)
  | .read item => (.status (f.fifoRead item).1 (f.fifoRead item).2.1, (f.fifoRead item).2.2)
  | .empty => (.answer f.fifoEmpty, f)
  | .full => (.answer f.fifoFull, f)

/-- The replies to a sequence of calls, and the fifo behind it. -/
def Fifo.run (f : Fifo) : List FifoCall → List FifoReply × Fifo
  | [] => ([], f)
  | c :: cs => ((f.call c).1 :: ((f.call c).2.run cs).1, ((f.call c).2.run cs).2)

/-! ## The queue -/

/-- The first `n` bytes of memory. -/
def loadBytes (n : Nat) (item : Nat → Byte) : List Byte := (List.range n).map item

/-- Memory with the first bytes replaced. -/
def storeBytes (item : Nat → Byte) (bytes : List Byte) : Nat → Byte :=
  fun i => bytes.getD i (item i)

/-- The calls on a queue of items of `itemSize` bytes. -/
def queueCall (itemSize : Nat) {size : Nat} (q : BoundedQueue (List Byte) size) :
    FifoCall → FifoReply × BoundedQueue (List Byte) size
  | .write none => (.status .kInvaildAddr none, q)
  | .write (some item) =>
      match q.enqueue (loadBytes itemSize item) with
      | none => (.status .kOutOfResource (some item), q)
      | some q' => (.status .kSuccess (some item), q')
  | .read none => (.status .kInvaildAddr none, q)
  | .read (some item) =>
      match q.dequeue with
      | none => (.status .kOutOfResource (some item), q)
      | some (bytes, q') => (.status .kSuccess (some (storeBytes item bytes)), q')
  | .empty => (.answer (q.items.length = 0), q)
  | .full => (.answer (q.items.length = size), q)

def queueRun (itemSize : Nat) {size : Nat} (q : BoundedQueue (List Byte) size) :
    List FifoCall → List FifoReply × BoundedQueue (List Byte) size
  | [] => ([], q)
  | c :: cs =>
      ((queueCall itemSize q c).1 :: (queueRun itemSize (queueCall itemSize q c).2 cs).1,
        (queueRun itemSize (queueCall itemSize q c).2 cs).2)

namespace Fifo

/-- The bytes the next write and the next read touch lie in the area. -/
structure InArea (f : Fifo) (bytes : Nat) : Prop where
  read : 0 ≤ f.offset f.nextRead ∧ f.offset f.nextRead + asSize f.itemSize ≤ bytes
  write : 0 ≤ f.offset f.nextWrite ∧ f.offset f.nextWrite + asSize f.itemSize ≤ bytes

/-- A call that returns an error leaves the fifo as it was. -/
def FailsUnchanged (f : Fifo) : Prop :=
  ∀ c code item, (f.call c).1 = .status code item → code ≠ .kSuccess → (f.call c).2 = f

/-- After any calls: the replies so far are those of the queue, the indices are inside the
area, and a call that fails would change nothing. -/
structure IsQueue (f : Fifo) (itemSize size : Nat) : Prop where
  replies : ∀ calls, (f.run calls).1 = (queueRun itemSize (.empty _ size) calls).1
  area : ∀ calls, (f.run calls).2.InArea (itemSize * size)
  fails : ∀ calls, (f.run calls).2.FailsUnchanged

/-- The size of an item and the place of the last one are numbers of type `int`. -/
structure OffsetsFit (itemSize size : Nat) : Prop where
  item : itemSize < 0x80000000
  last : itemSize * (size - 1) < 0x80000000

end Fifo

/-! ## Numbers of type `int` -/

theorem asInt_of_fits {x : Int} (hlo : -0x80000000 ≤ x) (hhi : x < 0x80000000) :
    asInt x = x := by
  unfold asInt
  omega

theorem asSize_natCast {n : Nat} (hn : n < wordSize) : asSize (n : Int) = n := by
  unfold asSize wordSize
  unfold wordSize at hn
  omega

namespace Fifo

variable {f : Fifo} {itemSize size : Nat} {items : List (List Byte)}

theorem OffsetsFit.le (h : OffsetsFit itemSize size) {i : Nat} (hi : i < size) :
    itemSize * i < 0x80000000 := by
  have hle : itemSize * i ≤ itemSize * (size - 1) := Nat.mul_le_mul_left _ (by omega)
  have hlast := h.last
  omega

theorem offset_eq (h : OffsetsFit itemSize size) (hitem : f.itemSize = itemSize) {i : Nat}
    (hi : i < size) : f.offset i = ((itemSize * i : Nat) : Int) := by
  have hle := h.le hi
  rw [offset, hitem, Int.natCast_mul]
  apply asInt_of_fits
  · omega
  · omega

/-- The bytes of the item at index `i`. -/
def cell (f : Fifo) (itemSize i : Nat) : List Byte :=
  (List.range itemSize).map fun k : Nat => f.data ((itemSize * i : Nat) + k)

/-- The fifo holds the items, the oldest first. -/
structure Holds (f : Fifo) (itemSize size : Nat) (items : List (List Byte)) : Prop where
  itemSizeEq : f.itemSize = itemSize
  sizeEq : f.size = size
  freeEq : f.free = size - items.length
  nextRead : 0 ≤ f.nextRead
  nextWrite : f.nextWrite = ((f.nextRead.toNat + items.length) % size : Nat)
  cells : Circular (f.cell itemSize) size f.nextRead.toNat items

theorem Holds.init (data : Int → Byte) (hfit : OffsetsFit itemSize size) (hsize : 0 < size) :
    Holds (initFifo data itemSize size) itemSize size [] where
  itemSizeEq := by
    have hitem := hfit.item
    apply asInt_of_fits
    · omega
    · omega
  sizeEq := rfl
  freeEq := by simp [initFifo]
  nextRead := Int.le_refl 0
  nextWrite := by simp [initFifo]
  cells := .nil hsize

/-- An index that is advanced. -/
theorem next_eq {i : Nat} (hi : i < size) (hsize : size < 0x80000000) :
    (asInt (i + 1)).tmod size = ((i + 1) % size : Nat) := by
  rw [asInt_of_fits (by omega) (by omega)]
  exact (Int.natCast_mod (i + 1) size).symm

/-- The bytes of other cells are not touched by a write. -/
theorem copyIn_cell_of_ne {data : Int → Byte} {item : Nat → Byte} {i j k : Nat} (hne : i ≠ j)
    (hk : k < itemSize) :
    copyIn data ((itemSize * j : Nat) : Int) item itemSize ((itemSize * i : Nat) + k) =
      data ((itemSize * i : Nat) + k) := by
  apply if_neg
  rcases Nat.lt_or_gt_of_ne hne with hlt | hgt
  · have hle : itemSize * i + itemSize ≤ itemSize * j :=
      (Nat.mul_succ itemSize i) ▸ Nat.mul_le_mul_left _ hlt
    omega
  · have hle : itemSize * j + itemSize ≤ itemSize * i :=
      (Nat.mul_succ itemSize j) ▸ Nat.mul_le_mul_left _ hgt
    omega

theorem copyIn_cell {data : Int → Byte} {item : Nat → Byte} {j k : Nat} (hk : k < itemSize) :
    copyIn data ((itemSize * j : Nat) : Int) item itemSize ((itemSize * j : Nat) + k) =
      item k := by
  rw [copyIn, if_pos (by omega)]
  congr 1
  omega

/-- The locked part of a write, when there is room. -/
theorem Holds.writeBody (h : Holds f itemSize size items) (hfit : OffsetsFit itemSize size)
    (hsize : size < 0x80000000) (hroom : items.length < size) (item : Nat → Byte) :
    Holds (f.writeBody item) itemSize size (items ++ [loadBytes itemSize item]) := by
  have hitem := hfit.item
  have hwrite : (f.nextRead.toNat + items.length) % size < size := Nat.mod_lt _ (by omega)
  have hdata : (f.writeBody item).data = copyIn f.data
      ((itemSize * ((f.nextRead.toNat + items.length) % size) : Nat) : Int) item itemSize := by
    show copyIn _ _ _ _ = _
    rw [h.nextWrite, offset_eq hfit h.itemSizeEq hwrite, h.itemSizeEq,
      asSize_natCast (by unfold wordSize; omega)]
  refine ⟨h.itemSizeEq, h.sizeEq, ?_, h.nextRead, ?_, ?_⟩
  · show asInt (f.free - 1) = _
    rw [h.freeEq, asInt_of_fits (by omega) (by omega), List.length_append, List.length_singleton]
    omega
  · show (asInt (f.nextWrite + 1)).tmod f.size = _
    rw [h.nextWrite, h.sizeEq, next_eq hwrite hsize, List.length_append, List.length_singleton,
      Nat.mod_add_mod]
    rfl
  · refine h.cells.enqueue hroom ?_ fun i hi hne => ?_
    · show List.map _ _ = List.map _ _
      apply List.map_congr_left
      intro k hk
      rw [hdata]
      exact copyIn_cell (List.mem_range.mp hk)
    · show List.map _ _ = List.map _ _
      apply List.map_congr_left
      intro k hk
      rw [hdata]
      exact copyIn_cell_of_ne hne (List.mem_range.mp hk)

/-- The locked part of a read, when there is an item. -/
theorem Holds.readBody {bytes : List Byte} (h : Holds f itemSize size (bytes :: items))
    (hfit : OffsetsFit itemSize size) (hsize : size < 0x80000000) (item : Nat → Byte) :
    (f.readBody item).1 = storeBytes item bytes ∧
      Holds (f.readBody item).2 itemSize size items := by
  have hitem := hfit.item
  have hbounded := h.cells.bounded
  rw [List.length_cons] at hbounded
  have hread : f.nextRead = (f.nextRead.toNat : Int) := (Int.toNat_of_nonneg h.nextRead).symm
  obtain ⟨hfirst, hrest⟩ := h.cells.dequeue
  have hnext : (f.readBody item).2.nextRead = ((f.nextRead.toNat + 1) % size : Nat) := by
    show (asInt (f.nextRead + 1)).tmod f.size = _
    rw [h.sizeEq, hread]
    exact next_eq h.cells.inside hsize
  refine ⟨?_, h.itemSizeEq, h.sizeEq, ?_, ?_, ?_, ?_⟩
  · funext k
    show copyOut _ _ _ _ k = _
    rw [hread, offset_eq hfit h.itemSizeEq h.cells.inside, h.itemSizeEq,
      asSize_natCast (by unfold wordSize; omega), ← hfirst, copyOut, storeBytes, cell]
    by_cases hk : k < itemSize
    · simp [hk]
    · simp [hk]
  · show asInt (f.free + 1) = _
    rw [h.freeEq, List.length_cons, asInt_of_fits (by omega) (by omega)]
    omega
  · rw [hnext]
    exact Int.natCast_nonneg _
  · rw [hnext, Int.toNat_natCast, Nat.mod_add_mod]
    show f.nextWrite = _
    rw [h.nextWrite, List.length_cons, Nat.add_assoc, Nat.add_comm 1]
  · rw [hnext, Int.toNat_natCast]
    exact hrest

theorem Holds.free_eq_zero_iff (h : Holds f itemSize size items) :
    f.free = 0 ↔ ¬ items.length < size := by
  rw [h.freeEq]
  have hbounded := h.cells.bounded
  omega

theorem Holds.free_eq_size_iff (h : Holds f itemSize size items) :
    f.free = f.size ↔ items = [] := by
  rw [h.freeEq, h.sizeEq, ← List.length_eq_zero_iff]
  omega

theorem Holds.inArea (h : Holds f itemSize size items) (hfit : OffsetsFit itemSize size) :
    f.InArea (itemSize * size) := by
  have hinside := h.cells.inside
  have hitem := hfit.item
  have hread : f.nextRead = (f.nextRead.toNat : Int) := (Int.toNat_of_nonneg h.nextRead).symm
  have hcell {i : Nat} (hi : i < size) :
      0 ≤ f.offset i ∧ f.offset i + asSize f.itemSize ≤ (itemSize * size : Nat) := by
    have hle : itemSize * (i + 1) ≤ itemSize * size := Nat.mul_le_mul_left _ hi
    rw [Nat.mul_succ] at hle
    rw [offset_eq hfit h.itemSizeEq hi, h.itemSizeEq, asSize_natCast (by unfold wordSize; omega)]
    omega
  constructor
  · rw [hread]
    exact hcell hinside
  · rw [h.nextWrite]
    exact hcell (Nat.mod_lt _ (Nat.zero_lt_of_lt hinside))

/-- A call does to the fifo what it does to the queue. -/
theorem Holds.call {q : BoundedQueue (List Byte) size} (h : Holds f itemSize size q.items)
    (hfit : OffsetsFit itemSize size) (hsize : size < 0x80000000) (c : FifoCall) :
    (f.call c).1 = (queueCall itemSize q c).1 ∧
      Holds (f.call c).2 itemSize size (queueCall itemSize q c).2.items := by
  cases c with
  | write item =>
      cases item with
      | none => exact ⟨rfl, h⟩
      | some item =>
          by_cases hroom : q.items.length < size
          · have hfree : f.free ≠ 0 := by rwa [Ne, h.free_eq_zero_iff, not_not]
            simp only [Fifo.call, fifoWrite_of_room hfree, queueCall,
              BoundedQueue.enqueue_of_room hroom]
            exact ⟨trivial, h.writeBody hfit hsize hroom item⟩
          · have hfree : f.free = 0 := h.free_eq_zero_iff.mpr hroom
            simp only [Fifo.call, fifoWrite_of_full hfree, queueCall,
              BoundedQueue.enqueue_of_full hroom]
            exact ⟨trivial, h⟩
  | read item =>
      cases item with
      | none => exact ⟨rfl, h⟩
      | some item =>
          obtain ⟨items, hbounded⟩ := q
          cases items with
          | nil =>
              have hfree : f.free = f.size := h.free_eq_size_iff.mpr rfl
              simp only [Fifo.call, fifoRead_of_empty hfree, queueCall, BoundedQueue.dequeue]
              exact ⟨trivial, h⟩
          | cons bytes items =>
              have hfree : f.free ≠ f.size := by simp [h.free_eq_size_iff]
              obtain ⟨hbytes, hrest⟩ := h.readBody hfit hsize item
              simp only [Fifo.call, fifoRead_of_item hfree, queueCall, BoundedQueue.dequeue,
                hbytes]
              exact ⟨trivial, hrest⟩
  | empty =>
      refine ⟨?_, h⟩
      simp only [Fifo.call, fifoEmpty, queueCall, h.free_eq_size_iff, List.length_eq_zero_iff]
  | full =>
      refine ⟨?_, h⟩
      have hbounded := q.bounded
      have hiff : ¬ q.items.length < size ↔ q.items.length = size := by omega
      simp only [Fifo.call, fifoFull, queueCall, h.free_eq_zero_iff, hiff]

theorem Holds.run {q : BoundedQueue (List Byte) size} (h : Holds f itemSize size q.items)
    (hfit : OffsetsFit itemSize size) (hsize : size < 0x80000000) (calls : List FifoCall) :
    (f.run calls).1 = (queueRun itemSize q calls).1 ∧
      Holds (f.run calls).2 itemSize size (queueRun itemSize q calls).2.items := by
  induction calls generalizing f q with
  | nil => exact ⟨rfl, h⟩
  | cons c cs ih =>
      obtain ⟨hreply, hcall⟩ := h.call hfit hsize c
      obtain ⟨hreplies, hrun⟩ := ih hcall
      refine ⟨?_, hrun⟩
      rw [Fifo.run, queueRun, hreply, hreplies]

theorem failsUnchanged (f : Fifo) : f.FailsUnchanged := by
  intro c code item hreply hcode
  cases c with
  | write item =>
      cases item with
      | none => rfl
      | some item =>
          simp only [call, fifoWrite] at hreply ⊢
          split
          · rfl
          · next hfree =>
              rw [if_neg hfree] at hreply
              cases hreply
              exact absurd rfl hcode
  | read item =>
      cases item with
      | none => rfl
      | some item =>
          simp only [call, fifoRead] at hreply ⊢
          split
          · rfl
          · next hfree =>
              rw [if_neg hfree] at hreply
              cases hreply
              exact absurd rfl hcode
  | empty => rfl
  | full => rfl

/-! ## Areas that are too large -/

/-- A first write, read back. -/
theorem run_write_read (data : Int → Byte) {size : Nat} (hpos : 0 < size)
    (hsize : size < 0x80000000) (itemSize : Nat) (item dest : Nat → Byte) :
    ((initFifo data itemSize size).run [.write (some item), .read (some dest)]).1 =
      [.status .kSuccess (some item), .status .kSuccess (some (copyOut dest
        (copyIn data 0 item (asSize (asInt itemSize))) 0 (asSize (asInt itemSize))))] := by
  have hzero : asInt (asInt itemSize * 0) = 0 := by
    rw [Int.mul_zero]
    rfl
  have hfree : (size : Int) ≠ 0 := by omega
  have hless : asInt ((size : Int) - 1) ≠ size := by
    rw [asInt_of_fits (by omega) (by omega)]
    omega
  simp only [run, call, fifoWrite, fifoRead, initFifo, writeBody, readBody, offset, hzero,
    if_neg hfree, if_neg hless]

theorem queueRun_write_read (hne : 0 < size) (item dest : Nat → Byte) :
    (queueRun itemSize (.empty _ size) [.write (some item), .read (some dest)]).1 =
      [.status .kSuccess (some item),
        .status .kSuccess (some (storeBytes dest (loadBytes itemSize item)))] := by
  have henqueue : (BoundedQueue.empty (List Byte) size).enqueue (loadBytes itemSize item) =
      some ⟨[loadBytes itemSize item], hne⟩ := BoundedQueue.enqueue_of_room hne _
  simp only [queueRun, queueCall, henqueue, BoundedQueue.dequeue]

/-- Writes advance the index, whatever they do to memory. -/
theorem run_writes (item : Nat → Byte) {size : Nat} (hsize : size < 0x80000000) (k : Nat) :
    ∀ {f : Fifo} {j : Nat}, f.size = size → f.nextWrite = j → f.free = size - j →
      j + k < size →
      (f.run (List.replicate k (.write (some item)))).2.nextWrite = (j + k : Nat) ∧
        (f.run (List.replicate k (.write (some item)))).2.itemSize = f.itemSize := by
  induction k with
  | zero => exact fun _ hwrite _ _ => ⟨hwrite, rfl⟩
  | succ k ih =>
      intro f j hf hwrite hfree hlt
      have hne : f.free ≠ 0 := by omega
      have hnext : (f.writeBody item).nextWrite = (j + 1 : Nat) := by
        show (asInt (f.nextWrite + 1)).tmod f.size = _
        rw [hwrite, hf, next_eq (by omega) hsize, Nat.mod_eq_of_lt (by omega)]
      have hless : (f.writeBody item).free = size - (j + 1 : Nat) := by
        show asInt (f.free - 1) = _
        rw [hfree, asInt_of_fits (by omega) (by omega)]
        omega
      obtain ⟨hk, hitem⟩ := ih (f := f.writeBody item) hf hnext hless (by omega)
      simp only [List.replicate_succ, run, call, fifoWrite, if_neg hne]
      rw [hk, hitem]
      exact ⟨by omega, rfl⟩

theorem offsetsFit_of_isQueue (hpos : 0 < itemSize) (hne : 0 < size) (hsize : size < 0x80000000)
    (harea : itemSize * size ≤ 0x8000000000000000)
    (h : (initFifo (fun _ => 0) itemSize size).IsQueue itemSize size) :
    OffsetsFit itemSize size := by
  have hle : itemSize ≤ itemSize * size := Nat.le_mul_of_pos_right _ hne
  have hitem : itemSize < 0x80000000 := by
    by_contra hlarge
    rcases lt_or_ge (asInt itemSize) 0 with hneg | hnonneg
    · -- A negative size is a huge number of bytes.
      have hread := ((h.area []).read).2
      have hzero : (initFifo (fun _ => 0) itemSize size).offset 0 = 0 := by
        rw [offset, Int.mul_zero]
        rfl
      have hhuge : asSize (asInt itemSize) ≥ 0xffffffff80000000 := by
        unfold asSize wordSize
        unfold asInt at hneg ⊢
        omega
      change (initFifo (fun _ => 0) itemSize size).offset 0 + asSize (asInt itemSize) ≤ _ at hread
      rw [hzero] at hread
      omega
    · -- Fewer bytes than those of an item are copied.
      have hfew : asSize (asInt itemSize) < itemSize := by
        unfold asSize wordSize
        unfold asInt at hnonneg ⊢
        omega
      have hreplies := h.replies [.write (some fun _ => 1), .read (some fun _ => 0)]
      rw [run_write_read _ hne hsize, queueRun_write_read hne] at hreplies
      simp only [List.cons.injEq, FifoReply.status.injEq, Option.some.injEq, true_and,
        and_true] at hreplies
      have hbyte := congrFun hreplies (asSize (asInt itemSize))
      simp [copyOut, storeBytes, loadBytes, hfew] at hbyte
  refine ⟨hitem, ?_⟩
  by_contra hlarge
  -- The first index whose place is no `int`.
  have hfirst := Nat.mul_div_le (0x7fffffff + itemSize) itemSize
  have hlast := Nat.lt_mul_div_succ (0x7fffffff + itemSize) hpos
  have hindex : (0x7fffffff + itemSize) / itemSize < size := by
    rw [Nat.div_lt_iff_lt_mul hpos, Nat.mul_comm]
    have hsucc : itemSize * (size - 1 + 1) = itemSize * (size - 1) + itemSize := Nat.mul_succ ..
    rw [Nat.sub_add_cancel hne] at hsucc
    omega
  generalize (0x7fffffff + itemSize) / itemSize = k at hfirst hlast hindex
  rw [Nat.mul_succ] at hlast
  have hwrites := run_writes (fun _ => 0) hsize k (f := initFifo (fun _ => 0) itemSize size)
    (j := 0) rfl rfl (by simp [initFifo]) (by omega)
  have hwrite := ((h.area (List.replicate k (.write (some fun _ => 0)))).write).1
  rw [offset, hwrites.1, hwrites.2] at hwrite
  have hstored : (initFifo (fun _ => 0) itemSize size).itemSize = itemSize :=
    asInt_of_fits (by omega) (by omega)
  rw [hstored, Nat.zero_add, ← Int.natCast_mul] at hwrite
  unfold asInt at hwrite
  omega

/-- The fifo is a bounded queue, with its indices inside the area, as long as the places of
the items are numbers of type `int`. -/
theorem isQueue_iff (hpos : 1 ≤ itemSize) (hne : 1 ≤ size) (hsize : size < 0x80000000)
    (harea : itemSize * size ≤ 0x8000000000000000) :
    (∀ data, (initFifo data itemSize size).IsQueue itemSize size) ↔ OffsetsFit itemSize size := by
  constructor
  · exact fun h => offsetsFit_of_isQueue hpos hne hsize harea (h _)
  · intro hfit data
    have hrun (calls : List FifoCall) :=
      (Holds.init data hfit hne).run (q := .empty _ size) hfit hsize calls
    exact ⟨fun calls => (hrun calls).1, fun calls => (hrun calls).2.inArea hfit,
      fun calls => failsUnchanged _⟩

/-- The fifos of the xHCI driver hold 16 blocks of 16 bytes. -/
theorem isQueue_trbs : (initFifo (fun _ => 0) 16 16).IsQueue 16 16 :=
  (isQueue_iff (by decide) (by decide) (by decide) (by decide)).mpr
    ⟨by decide, by decide⟩ fun _ => 0

/-- With items of 64 KiB the 32769th lies 2 GiB below the area. -/
theorem not_isQueue_large : ¬ ∀ data, (initFifo data 65536 65537).IsQueue 65536 65537 := by
  intro h
  have hfit := offsetsFit_of_isQueue (by decide) (by decide) (by decide) (by decide) (h fun _ => 0)
  exact absurd hfit.last (by decide)

end Fifo

end ClayFigure
