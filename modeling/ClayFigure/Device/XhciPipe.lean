/-
# Allocating a pipe

`xhci_alloc_pipe` takes up to five blocks and gives up to four commands to the controller, besides
the block and the command of `xhci_configure_hub`, and each of them may fail. What it has taken up
to a failure it frees at the end, behind the label `fail`, except on three early ways out. A block
that is not freed is lost, unless the controller still has it as the context of a device.
-/

import ClayFigure.Kernel.Global
import Mathlib.Data.FinEnum
import Mathlib.Data.Finset.Lattice.Fold
import Mathlib.Order.Lattice.Nat

namespace ClayFigure

/-! ## The code -/

/-- What of an endpoint descriptor decides about the pipe. -/
structure EndpointDesc where
  bEndpointAddress : Byte
  bmAttributes : Byte

/-- The device: the slot of its default pipe, and that of the hub it is at, if that is a device
itself. -/
structure PipeDevice where
  defpipeSlot : Byte
  hubSlot : Option Byte

/-- `xhci_pipe_t` when it is ready; `buf` is `NULL` if it is not for interrupts. -/
structure XhciPipe where
  addr : Nat
  slotId : Byte
  epid : Nat
  reqs : Nat
  buf : Nat

/-- The blocks that the call has allocated and not freed, `xhci->devs` as virtual addresses, and
the slots that the controller has enabled. -/
structure XhciHeap where
  blocks : Finset Nat
  devs : Byte → Nat
  enabled : Byte → Bool

/-- What `kmalloc` gives when it does not fail: a block that is not in use, neither by the call nor
as the context of a device. -/
structure FreshBlock where
  addr : XhciHeap → Nat
  ne_zero : ∀ s, addr s ≠ 0
  fresh : ∀ s, addr s ∉ s.blocks
  not_installed : ∀ s slot, s.enabled slot = true → s.devs slot ≠ addr s

/-- How the allocations and commands of a call come out. A block that is `none` is an allocation
that fails, and so is an enabled slot that is `none`; a command is answered by a code. -/
structure PipeOutcomes where
  pipe : Option FreshBlock
  reqs : Option FreshBlock
  buf : Option FreshBlock
  inCtx : Option FreshBlock
  hubInCtx : Option FreshBlock
  hubConfigure : Nat
  dev : Option FreshBlock
  enableSlot : Option Byte
  addressDevice : Nat
  disableSlot : Nat
  configure : Nat
  /-- Word 3 of the slot context at an address. -/
  slotState : Nat → UInt32

/-- `CC_SUCCESS`. -/
abbrev ccSuccess : Nat := 1

/-- The transfer type of an endpoint; `USB_ENDPOINT_XFER_INT` is 3. -/
def EndpointDesc.eptype (epdesc : EndpointDesc) : Byte := epdesc.bmAttributes &&& 0x03

/-- The index of an endpoint in a device context. -/
def EndpointDesc.epid (epdesc : EndpointDesc) : Nat :=
  if epdesc.bEndpointAddress = 0 then 1
  else (epdesc.bEndpointAddress &&& 0x0f).toNat * 2 +
    if epdesc.bEndpointAddress &&& 0x80 ≠ 0 then 1 else 0

namespace XhciHeap

/-- A block is the call's. -/
def take (s : XhciHeap) (b : Nat) : XhciHeap := { s with blocks := insert b s.blocks }

/-- `kfree`; `none` is a block that is not the call's, or not any more. -/
def kfree (s : XhciHeap) (b : Nat) : Option XhciHeap :=
  if b = 0 then some s
  else if b ∈ s.blocks then some { s with blocks := s.blocks.erase b }
  else none

/-- `xhci->devs[slot_id].ptr`, with the slot enabled or not. -/
def setDev (s : XhciHeap) (slot : Byte) (dev : Nat) (enabled : Bool) : XhciHeap :=
  { s with
    devs := Function.update s.devs slot dev
    enabled := Function.update s.enabled slot enabled }

/-- The label `fail`. -/
def fail (s : XhciHeap) (buf reqs pipe inCtx : Nat) : Option (Option XhciPipe × XhciHeap) := do
  let s ← s.kfree buf
  let s ← s.kfree reqs
  let s ← s.kfree pipe
  let s ← s.kfree inCtx
  return (none, s)

/-- The end when all went well. -/
def finish (s : XhciHeap) (inCtx : Nat) (pipe : XhciPipe) : Option (Option XhciPipe × XhciHeap) := do
  let s ← s.kfree inCtx
  return (some pipe, s)

/-- `xhci_configure_hub`. -/
def configureHub (s : XhciHeap) (o : PipeOutcomes) (slot : Byte) : Option (Int × XhciHeap) :=
  if o.slotState (s.devs slot) >>> 27 = 3 then some (0, s)
  else
    match o.hubInCtx with
    | none => some (-1, s)
    | some b => do
        let inCtx := b.addr s
        let s ← (s.take inCtx).kfree inCtx
        return (if o.hubConfigure = ccSuccess then 0 else -1, s)

/-- From `Enable slot` on. -/
def enableSlot (s : XhciHeap) (o : PipeOutcomes) (epid pipe reqs buf inCtx : Nat) :
    Option (Option XhciPipe × XhciHeap) :=
  match o.dev with
  | none => s.fail buf reqs pipe inCtx
  | some b =>
      let dev := b.addr s
      let s := s.take dev
      match o.enableSlot with
      | none => do
          let s ← s.kfree dev
          s.fail buf reqs pipe inCtx
      | some slotId =>
          let s := s.setDev slotId dev true
          if o.addressDevice = ccSuccess then s.finish inCtx ⟨pipe, slotId, epid, reqs, buf⟩
          else if o.disableSlot = ccSuccess then do
            let s ← (s.setDev slotId 0 false).kfree dev
            s.fail buf reqs pipe inCtx
          else s.fail buf reqs pipe inCtx

/-- From `Allocate input context` on. -/
def allocInCtx (s : XhciHeap) (d : PipeDevice) (o : PipeOutcomes) (epid pipe reqs buf : Nat) :
    Option (Option XhciPipe × XhciHeap) :=
  match o.inCtx with
  | none => s.fail buf reqs pipe 0
  | some b =>
      let inCtx := b.addr s
      let s := s.take inCtx
      if epid = 1 then
        match d.hubSlot with
        | none => s.enableSlot o epid pipe reqs buf inCtx
        | some hubSlot => do
            let (ret, s) ← s.configureHub o hubSlot
            if ret ≠ 0 then s.fail buf reqs pipe inCtx
            else s.enableSlot o epid pipe reqs buf inCtx
      else if o.configure = ccSuccess then
        s.finish inCtx ⟨pipe, d.defpipeSlot, epid, reqs, buf⟩
      else s.fail buf reqs pipe inCtx

/-- `xhci_alloc_pipe`; `none` is a free of what is not the call's. -/
def xhciAllocPipe (s : XhciHeap) (d : PipeDevice) (epdesc : EndpointDesc) (o : PipeOutcomes) :
    Option (Option XhciPipe × XhciHeap) :=
  match o.pipe with
  | none => some (none, s)
  | some b =>
      let pipe := b.addr s
      let s := s.take pipe
      match o.reqs with
      | none => do
          let s ← s.kfree pipe
          return (none, s)
      | some b =>
          let reqs := b.addr s
          let s := s.take reqs
          if epdesc.eptype = 3 then
            match o.buf with
            | none => do
                let s ← s.kfree pipe
                return (none, s)
            | some b => (s.take (b.addr s)).allocInCtx d o epdesc.epid pipe reqs (b.addr s)
          else s.allocInCtx d o epdesc.epid pipe reqs 0

/-! ## Blocks that are lost -/

/-- Each block left is the context of an enabled slot. -/
def Clean (s : XhciHeap) : Prop :=
  ∀ b ∈ s.blocks, ∃ slot, s.enabled slot = true ∧ s.devs slot = b

/-- The call frees nothing but blocks of its own, each once, and if it returns `NULL`, all of them
but contexts of enabled slots. -/
def FailsCleanly (devs : Byte → Nat) (enabled : Byte → Bool) (d : PipeDevice)
    (epdesc : EndpointDesc) (o : PipeOutcomes) : Prop :=
  ∃ pipe t, xhciAllocPipe ⟨∅, devs, enabled⟩ d epdesc o = some (pipe, t) ∧ (pipe = none → t.Clean)

/-- The blocks of the call are those its variables hold, each in one of them. -/
structure Owns (s : XhciHeap) (l : List Nat) : Prop where
  mem : ∀ b, b ∈ s.blocks ↔ b ≠ 0 ∧ b ∈ l
  distinct : l.Pairwise fun a b => a = b → a = 0

namespace Owns

variable {s : XhciHeap} {l : List Nat} {a : Nat}

theorem nil (devs : Byte → Nat) (enabled : Byte → Bool) : Owns ⟨∅, devs, enabled⟩ [] where
  mem b := iff_of_false (Finset.notMem_empty b) fun h => List.not_mem_nil h.2
  distinct := .nil

theorem perm (h : s.Owns l) {l' : List Nat} (hperm : l.Perm l') : s.Owns l' where
  mem b := (h.mem b).trans (and_congr_right fun _ => hperm.mem_iff)
  distinct := (hperm.pairwise_iff fun hab hba => (hab hba.symm) ▸ hba).mp h.distinct

/-- A variable that is `NULL` holds nothing. -/
theorem null (h : s.Owns l) : s.Owns (0 :: l) where
  mem b := by
    rw [h.mem, List.mem_cons]
    exact and_congr_right fun hne => (or_iff_right hne).symm
  distinct := .cons (fun _ _ _ => rfl) h.distinct

theorem setDev (h : s.Owns l) (slot : Byte) (dev : Nat) (enabled : Bool) :
    (s.setDev slot dev enabled).Owns l := ⟨h.mem, h.distinct⟩

/-- A new block. -/
theorem take (h : s.Owns l) (b : FreshBlock) : (s.take (b.addr s)).Owns (b.addr s :: l) where
  mem a := by
    show a ∈ insert (b.addr s) s.blocks ↔ _
    rw [Finset.mem_insert, h.mem, List.mem_cons]
    constructor
    · rintro (rfl | ⟨hne, hmem⟩)
      · exact ⟨b.ne_zero s, .inl rfl⟩
      · exact ⟨hne, .inr hmem⟩
    · rintro ⟨hne, hmem⟩
      exact hmem.imp_right fun hmem => ⟨hne, hmem⟩
  distinct := by
    refine .cons (fun a ha heq => absurd ?_ (b.fresh s)) h.distinct
    exact (h.mem _).mpr ⟨b.ne_zero s, heq ▸ ha⟩

/-- What is freed is gone, and only that. -/
theorem kfree (h : s.Owns (a :: l)) :
    ∃ t, s.kfree a = some t ∧ t.Owns l ∧ t.devs = s.devs ∧ t.enabled = s.enabled := by
  have hdistinct := List.pairwise_cons.mp h.distinct
  by_cases hzero : a = 0
  · refine ⟨s, if_pos hzero, ⟨fun b => ?_, hdistinct.2⟩, rfl, rfl⟩
    rw [h.mem, List.mem_cons, hzero]
    exact and_congr_right fun hne => or_iff_right hne
  · have hmem : a ∈ s.blocks := (h.mem a).mpr ⟨hzero, List.mem_cons_self⟩
    refine ⟨_, (if_neg hzero).trans (if_pos hmem), ⟨fun b => ?_, hdistinct.2⟩, rfl, rfl⟩
    show b ∈ s.blocks.erase a ↔ _
    rw [Finset.mem_erase, h.mem, List.mem_cons]
    constructor
    · rintro ⟨hne, hb, hor⟩
      exact ⟨hb, hor.resolve_left hne⟩
    · rintro ⟨hb, hmem⟩
      exact ⟨fun heq => hzero (hdistinct.1 b hmem heq.symm), hb, .inr hmem⟩

/-- Nothing is left. -/
theorem clean (h : s.Owns []) : s.Clean := fun b hb => absurd ((h.mem b).mp hb).2 List.not_mem_nil

/-- The label frees what its four variables hold. -/
theorem fail {buf reqs pipe inCtx : Nat} (h : s.Owns (buf :: reqs :: pipe :: inCtx :: l)) :
    ∃ t, s.fail buf reqs pipe inCtx = some (none, t) ∧ t.Owns l ∧ t.devs = s.devs ∧
      t.enabled = s.enabled := by
  obtain ⟨s₁, hbuf, h₁, hd₁, he₁⟩ := h.kfree
  obtain ⟨s₂, hreqs, h₂, hd₂, he₂⟩ := h₁.kfree
  obtain ⟨s₃, hpipe, h₃, hd₃, he₃⟩ := h₂.kfree
  obtain ⟨t, hinCtx, ht, hd, he⟩ := h₃.kfree
  refine ⟨t, ?_, ht, ?_, ?_⟩
  · rw [XhciHeap.fail, hbuf, Option.bind_eq_bind, Option.bind_some, hreqs, Option.bind_some, hpipe,
      Option.bind_some, hinCtx]
    rfl
  · rw [hd, hd₃, hd₂, hd₁]
  · rw [he, he₃, he₂, he₁]

end Owns

/-! ## The call -/

/-- A call that has come to an end as it should. -/
def EndsCleanly (result : Option (Option XhciPipe × XhciHeap)) : Prop :=
  ∃ pipe t, result = some (pipe, t) ∧ (pipe = none → t.Clean)

variable {s : XhciHeap} {buf reqs pipe inCtx : Nat} {l : List Nat}

/-- The label ends a call that holds nothing else. -/
theorem ends_fail (h : s.Owns [buf, reqs, pipe, inCtx]) : EndsCleanly (s.fail buf reqs pipe inCtx) := by
  obtain ⟨t, hfail, ht, -, -⟩ := h.fail
  exact ⟨none, t, hfail, fun _ => ht.clean⟩

theorem ends_finish (h : s.Owns (inCtx :: l)) (p : XhciPipe) : EndsCleanly (s.finish inCtx p) := by
  obtain ⟨t, hfree, -, -, -⟩ := h.kfree
  refine ⟨some p, t, ?_, fun h => by cases h⟩
  rw [finish, hfree]
  rfl

/-- The hub's own input context is freed in any case. -/
theorem configureHub_owns (h : s.Owns l) (o : PipeOutcomes) (slot : Byte) :
    ∃ ret t, s.configureHub o slot = some (ret, t) ∧ t.Owns l := by
  unfold configureHub
  split
  · exact ⟨0, s, rfl, h⟩
  · cases o.hubInCtx with
    | none => exact ⟨-1, s, rfl, h⟩
    | some b =>
        obtain ⟨t, hfree, ht, -, -⟩ := (h.take b).kfree
        refine ⟨if o.hubConfigure = ccSuccess then 0 else -1, t, ?_, ht⟩
        dsimp only
        rw [hfree]
        rfl

/-- From `Enable slot` on only the context of a slot that could not be disabled is kept. -/
theorem ends_enableSlot (h : s.Owns [buf, reqs, pipe, inCtx]) (o : PipeOutcomes) (epid : Nat) :
    EndsCleanly (s.enableSlot o epid pipe reqs buf inCtx) := by
  unfold enableSlot
  cases o.dev with
  | none => exact ends_fail h
  | some b =>
      have hdev := h.take b
      dsimp only
      cases o.enableSlot with
      | none =>
          obtain ⟨t, hfree, ht, -, -⟩ := hdev.kfree
          dsimp only
          rw [hfree]
          exact ends_fail ht
      | some slotId =>
          have hset := hdev.setDev slotId (b.addr s) true
          dsimp only
          split
          · refine ends_finish (l := [b.addr s, buf, reqs, pipe]) (hset.perm ?_) _
            exact (List.perm_append_singleton inCtx [b.addr s, buf, reqs, pipe])
          · split
            · obtain ⟨t, hfree, ht, -, -⟩ := (hset.setDev slotId 0 false).kfree
              rw [hfree]
              exact ends_fail ht
            · -- the slot is still enabled, and its context is the one block left
              have hperm : [b.addr s, buf, reqs, pipe, inCtx].Perm
                  [buf, reqs, pipe, inCtx, b.addr s] :=
                (List.perm_append_singleton (b.addr s) [buf, reqs, pipe, inCtx]).symm
              obtain ⟨t, hfail, ht, hdevs, henabled⟩ := (hset.perm hperm).fail
              refine ⟨none, t, hfail, fun _ a ha => ⟨slotId, ?_, ?_⟩⟩
              · rw [henabled]
                exact Function.update_self slotId _ _
              · rw [hdevs, List.mem_singleton.mp ((ht.mem a).mp ha).2]
                exact Function.update_self slotId _ _

/-- From `Allocate input context` on all is well. -/
theorem ends_allocInCtx (h : s.Owns [buf, reqs, pipe]) (d : PipeDevice) (o : PipeOutcomes)
    (epid : Nat) : EndsCleanly (s.allocInCtx d o epid pipe reqs buf) := by
  have hperm (a : Nat) : [a, buf, reqs, pipe].Perm [buf, reqs, pipe, a] :=
    (List.perm_append_singleton a [buf, reqs, pipe]).symm
  unfold allocInCtx
  cases o.inCtx with
  | none => exact ends_fail (h.null.perm (hperm 0))
  | some b =>
      have hctx := h.take b
      have hall := hctx.perm (hperm (b.addr s))
      dsimp only
      split
      · cases d.hubSlot with
        | none => exact ends_enableSlot hall o epid
        | some hubSlot =>
            obtain ⟨ret, t, hhub, ht⟩ := configureHub_owns hall o hubSlot
            dsimp only
            rw [hhub, Option.bind_eq_bind, Option.bind_some]
            dsimp only
            split
            · exact ends_fail ht
            · exact ends_enableSlot ht o epid
      · split
        · exact ends_finish hctx _
        · exact ends_fail hall

/-- Without a buffer for the data the ring is left, and no context has its address. -/
theorem not_failsCleanly {devs : Byte → Nat} {enabled : Byte → Bool} {d : PipeDevice}
    {epdesc : EndpointDesc} {o : PipeOutcomes} {b b' : FreshBlock} (hpipe : o.pipe = some b)
    (hreqs : o.reqs = some b') (hint : epdesc.eptype = 3) (hbuf : o.buf = none) :
    ¬ FailsCleanly devs enabled d epdesc o := by
  rintro ⟨pipe, u, heq, hclean⟩
  have howns := ((Owns.nil devs enabled).take b).take b'
  obtain ⟨t, hfree, ht, hdevs, henabled⟩ := (howns.perm (List.Perm.swap _ _ _)).kfree
  rw [xhciAllocPipe, hpipe] at heq
  dsimp only at heq
  rw [hreqs] at heq
  dsimp only at heq
  rw [if_pos hint, hbuf] at heq
  dsimp only at heq
  rw [hfree] at heq
  cases heq
  have hleft := (ht.mem _).mpr ⟨b'.ne_zero _, List.mem_singleton_self _⟩
  obtain ⟨slot, hslot, haddr⟩ := hclean rfl _ hleft
  rw [henabled] at hslot
  rw [hdevs] at haddr
  exact b'.not_installed (XhciHeap.take ⟨∅, devs, enabled⟩ _) slot hslot haddr

/-- The call fails cleanly just if it is not the block for the data of an interrupt endpoint that it
does not get, after the pipe and its ring. -/
theorem failsCleanly_iff (devs : Byte → Nat) (enabled : Byte → Bool) (d : PipeDevice)
    (epdesc : EndpointDesc) (o : PipeOutcomes) : FailsCleanly devs enabled d epdesc o ↔
      ¬ (o.pipe.isSome ∧ o.reqs.isSome ∧ epdesc.eptype = 3 ∧ o.buf = none) := by
  have hstart := Owns.nil devs enabled
  constructor
  · rintro h ⟨hpipe, hreqs, hint, hbuf⟩
    obtain ⟨b, hpipe⟩ := Option.isSome_iff_exists.mp hpipe
    obtain ⟨b', hreqs⟩ := Option.isSome_iff_exists.mp hreqs
    exact not_failsCleanly hpipe hreqs hint hbuf h
  · intro h
    show EndsCleanly _
    unfold xhciAllocPipe
    cases hpipe : o.pipe with
    | none => exact ⟨none, _, rfl, fun _ => hstart.clean⟩
    | some b =>
        have hone := hstart.take b
        dsimp only
        cases hreqs : o.reqs with
        | none =>
            obtain ⟨t, hfree, ht, -, -⟩ := hone.kfree
            refine ⟨none, t, ?_, fun _ => ht.clean⟩
            dsimp only
            rw [hfree]
            rfl
        | some b' =>
            have htwo := hone.take b'
            dsimp only
            split
            · next hint =>
                cases hbuf : o.buf with
                | none =>
                    exact absurd ⟨by rw [hpipe]; rfl, by rw [hreqs]; rfl, hint, hbuf⟩ h
                | some b'' => exact ends_allocInCtx (htwo.take b'') d o epdesc.epid
            · exact ends_allocInCtx htwo.null d o epdesc.epid

/-! ## An interrupt endpoint without a buffer -/

/-- The address after all that are in use. -/
def nextBlock : FreshBlock where
  addr s := s.blocks.sup id + Finset.univ.sup s.devs + 1
  ne_zero _ := Nat.succ_ne_zero _
  fresh s h := by
    have hle : s.blocks.sup id + Finset.univ.sup s.devs + 1 ≤ s.blocks.sup id :=
      Finset.le_sup (f := id) h
    omega
  not_installed s slot _ h := by
    have hle : s.devs slot ≤ Finset.univ.sup s.devs := Finset.le_sup (Finset.mem_univ slot)
    omega

/-- The allocations of the pipe and its ring succeed, and the third one does not. -/
def noBuffer : PipeOutcomes where
  pipe := some nextBlock
  reqs := some nextBlock
  buf := none
  inCtx := some nextBlock
  hubInCtx := none
  hubConfigure := ccSuccess
  dev := none
  enableSlot := none
  addressDevice := ccSuccess
  disableSlot := ccSuccess
  configure := ccSuccess
  slotState _ := 0

/-- The ring is lost. -/
theorem noBuffer_not_failsCleanly :
    ¬ FailsCleanly (fun _ => 0) (fun _ => false) ⟨1, none⟩ ⟨0x81, 0x03⟩ noBuffer :=
  not_failsCleanly rfl rfl (by decide) rfl

end XhciHeap

end ClayFigure
