/-
# The scan of the PCI buses

`pci_scan_all_bus` looks at each function of each bus under the host controllers, notes it in
`pci_devices`, and goes on with the bus behind it if it is a bridge. For each function it goes over
the list of capabilities to find the one for message signalled interrupts. Both follow numbers read
from the configuration space, which may be any; nothing is marked as seen.
-/

import ClayFigure.Kernel.Global
import ClayFigure.Math.Descent
import ClayFigure.Math.Loop
import Mathlib.Data.FinEnum

namespace ClayFigure

open ClayFigure.Math Relation

/-! ## The code -/

/-- The registers of all functions, by bus, device, function and offset. -/
abbrev ConfigSpace : Type := Byte → Fin 32 → Fin 8 → Byte → UInt32

/-- A function of a device. -/
structure PciFunc where
  bus : Byte
  device : Fin 32
  func : Fin 8
  deriving DecidableEq

/-- `pci_msi_struct_t` of a function that is capable of such interrupts, as far as the scan
writes it. -/
structure PciMsi where
  capAddr : Byte
  msgCtrl : UInt16
  msgCnt : UInt32
  startVector : UInt32
  deriving DecidableEq

/-- `pci_device_t`; `none` is a function that is not capable of message signalled interrupts. -/
structure PciDevice where
  place : PciFunc
  headerType : Byte
  classCode : UInt32
  msi : Option PciMsi
  deriving DecidableEq

/-- `pci_devices` and `number_of_pci_device`. -/
structure PciTable where
  devices : Byte → PciDevice
  number : Byte

namespace PciTable

/-- `add_device`. -/
def addDevice (s : PciTable) (d : PciDevice) : PciTable where
  devices := Function.update s.devices s.number d
  number := s.number + 1

end PciTable

namespace ConfigSpace

variable (c : ConfigSpace)

/-- `pci_config_read`. -/
def pciConfigRead (f : PciFunc) (offset : Byte) : UInt32 :=
  c f.bus f.device f.func (offset &&& 0xfc)

/-- `pci_read_header_type`. -/
def headerType (f : PciFunc) : Byte := ((c.pciConfigRead f 0x0c >>> 16) &&& 0xff).toUInt8

/-- `pci_read_vendor_id`. -/
def vendorId (f : PciFunc) : UInt16 := (c.pciConfigRead f 0x00 &&& 0xffff).toUInt16

/-- `pci_read_class_code`. -/
def classCode (f : PciFunc) : UInt32 := c.pciConfigRead f 0x08

/-- `pci_read_base_class_code`. -/
def baseClassCode (f : PciFunc) : Byte := ((c.classCode f >>> 24) &&& 0xff).toUInt8

/-- `pci_read_sub_class_code`. -/
def subClassCode (f : PciFunc) : Byte := ((c.classCode f >>> 16) &&& 0xff).toUInt8

/-- `pci_read_secondary_bus_number`. -/
def secondaryBusNumber (f : PciFunc) : Byte := ((c.pciConfigRead f 0x18 >>> 8) &&& 0xff).toUInt8

/-- One pass over the list of capabilities. -/
def capStep (f : PciFunc) (capAddr : Byte) : Option (Byte ⊕ Byte) :=
  if capAddr = 0 then some (.inr capAddr)
  else
    let header := c.pciConfigRead f capAddr
    if header &&& 0xff = 5 then some (.inr capAddr)
    else some (.inl ((header &&& 0xff00) >>> 8).toUInt8)

/-- The first capability. -/
def capPoint (f : PciFunc) : Byte := (c.pciConfigRead f 0x34 &&& 0xff).toUInt8

/-- `pci_dev_read_msi_info`, with at most `fuel` passes. -/
def readMsiInfo (fuel : Nat) (f : PciFunc) : Option (Option PciMsi) := do
  let capAddr ← loop (c.capStep f) fuel (c.capPoint f)
  if capAddr = 0 then return none
  else
    let msgCtrl := ((c.pciConfigRead f capAddr >>> 16) &&& 0xffff).toUInt16
    return some ⟨capAddr, msgCtrl, (1 : UInt32) <<< ((msgCtrl &&& 0x0e) >>> 1).toUInt32, 0⟩

/-- `scan_func`, by what `scan_bus` does. -/
def scanFunc (fuel : Nat) (scanBus : Byte → PciTable → Option PciTable) (f : PciFunc)
    (s : PciTable) : Option PciTable := do
  let msi ← c.readMsiInfo fuel f
  let s := s.addDevice ⟨f, c.headerType f, c.classCode f, msi⟩
  if c.baseClassCode f = 0x06 ∧ c.subClassCode f = 0x04 then scanBus (c.secondaryBusNumber f) s
  else return s

/-- `scan_device`. -/
def scanDevice (fuel : Nat) (scanBus : Byte → PciTable → Option PciTable) (bus : Byte)
    (dev : Fin 32) (s : PciTable) : Option PciTable :=
  if c.vendorId ⟨bus, dev, 0⟩ = 0xffff then some s
  else if c.headerType ⟨bus, dev, 0⟩ &&& 0x80 = 0 then c.scanFunc fuel scanBus ⟨bus, dev, 0⟩ s
  else (List.finRange 8).foldlM (fun s func =>
    if c.vendorId ⟨bus, dev, func⟩ ≠ 0xffff then c.scanFunc fuel scanBus ⟨bus, dev, func⟩ s
    else some s) s

/-- `scan_bus`, with calls at most `depth` deep. -/
def scanBus (fuel : Nat) : Nat → Byte → PciTable → Option PciTable
  | 0, _, _ => none
  | depth + 1, bus, s =>
      (List.finRange 32).foldlM (fun s dev => c.scanDevice fuel (scanBus fuel depth) bus dev s) s

/-- `pci_scan_all_bus`. -/
def pciScanAllBus (fuel depth : Nat) (devices : Byte → PciDevice) : Option PciTable :=
  let s : PciTable := ⟨devices, 0⟩
  if c.headerType ⟨0, 0, 0⟩ &&& 0x80 = 0 then c.scanBus fuel depth 0 s
  else (List.finRange 8).foldlM (fun s func =>
    if c.vendorId ⟨0, 0, func⟩ = 0xffff then some s
    else c.scanBus fuel depth (UInt8.ofNat func) s) s

/-! ## Buses and functions -/

/-- A device has functions, and it has more than the first one only if that says so. -/
def deviceFunctions (bus : Byte) (dev : Fin 32) : List PciFunc :=
  if c.vendorId ⟨bus, dev, 0⟩ = 0xffff then []
  else if c.headerType ⟨bus, dev, 0⟩ &&& 0x80 = 0 then [⟨bus, dev, 0⟩]
  else ((List.finRange 8).filter fun func => c.vendorId ⟨bus, dev, func⟩ ≠ 0xffff).map
    fun func => ⟨bus, dev, func⟩

/-- The functions of a bus. -/
def functions (bus : Byte) : List PciFunc := (List.finRange 32).flatMap (c.deviceFunctions bus)

/-- The bus behind a bridge. -/
def bridgeTo (f : PciFunc) : Option Byte :=
  if c.baseClassCode f = 0x06 ∧ c.subClassCode f = 0x04 then some (c.secondaryBusNumber f) else none

/-- The buses of the host controllers, the functions of device 0:0. -/
def hostBuses : List Byte :=
  if c.headerType ⟨0, 0, 0⟩ &&& 0x80 = 0 then [0]
  else ((List.finRange 8).filter fun func => c.vendorId ⟨0, 0, func⟩ ≠ 0xffff).map
    fun func : Fin 8 => UInt8.ofNat func

/-- A bridge on one bus leads to another. -/
abbrev Leads (a b : Byte) : Prop := ClayFigure.Math.Leads c.functions c.bridgeTo a b

/-- A bus is under a host controller. -/
def Reached (b : Byte) : Prop := ∃ r ∈ c.hostBuses, ReflTransGen c.Leads r b

/-- A function is there. -/
def Exists (f : PciFunc) : Prop := c.Reached f.bus ∧ f ∈ c.functions f.bus

/-- One capability of a function is in the list behind another. -/
def NextCap (f : PciFunc) (p q : Byte) : Prop :=
  p ≠ 0 ∧ c.pciConfigRead f p &&& 0xff ≠ 5 ∧
    q = ((c.pciConfigRead f p &&& 0xff00) >>> 8).toUInt8

/-- What the scan notes of a function. -/
def device (fuel : Nat) (f : PciFunc) : PciDevice :=
  ⟨f, c.headerType f, c.classCode f, (c.readMsiInfo fuel f).getD none⟩

/-- The table after some functions are noted. -/
def note (fuel : Nat) (s : PciTable) (fs : List PciFunc) : PciTable :=
  fs.foldl (fun s f => s.addDevice (c.device fuel f)) s

variable {c} {fuel : Nat}

theorem mem_deviceFunctions {bus : Byte} {dev : Fin 32} {f : PciFunc} :
    f ∈ c.deviceFunctions bus dev ↔ f.bus = bus ∧ f.device = dev ∧
      c.vendorId ⟨bus, dev, 0⟩ ≠ 0xffff ∧ c.vendorId f ≠ 0xffff ∧
        (f.func = 0 ∨ c.headerType ⟨bus, dev, 0⟩ &&& 0x80 ≠ 0) := by
  obtain ⟨b, d, func⟩ := f
  unfold deviceFunctions
  split
  · next hnone => exact iff_of_false List.not_mem_nil fun h => h.2.2.1 hnone
  · next hsome =>
      split
      · next hsingle =>
          rw [List.mem_singleton]
          constructor
          · rintro ⟨⟩
            exact ⟨rfl, rfl, hsome, hsome, .inl rfl⟩
          · rintro ⟨rfl, rfl, -, -, hfunc⟩
            obtain rfl : func = 0 := hfunc.resolve_right fun h => h hsingle
            rfl
      · next hmulti =>
          simp only [List.mem_map, List.mem_filter, List.mem_finRange, true_and, decide_eq_true_eq]
          constructor
          · rintro ⟨func, hvendor, ⟨⟩⟩
            exact ⟨rfl, rfl, hsome, hvendor, .inr hmulti⟩
          · rintro ⟨rfl, rfl, -, hvendor, -⟩
            exact ⟨func, hvendor, rfl⟩

/-- A function is found on its bus if its device has a first function, it answers itself, and it
is the first one or the device has several. -/
theorem mem_functions {bus : Byte} {f : PciFunc} : f ∈ c.functions bus ↔ f.bus = bus ∧
    c.vendorId ⟨bus, f.device, 0⟩ ≠ 0xffff ∧ c.vendorId f ≠ 0xffff ∧
      (f.func = 0 ∨ c.headerType ⟨bus, f.device, 0⟩ &&& 0x80 ≠ 0) := by
  rw [functions, List.mem_flatMap]
  simp only [List.mem_finRange, true_and, mem_deviceFunctions]
  constructor
  · rintro ⟨dev, hbus, rfl, h⟩
    exact ⟨hbus, h⟩
  · rintro ⟨hbus, h⟩
    exact ⟨f.device, hbus, rfl, h⟩

/-! ## The scan -/

theorem scanDevice_eq (scanBus : Byte → PciTable → Option PciTable) (bus : Byte) (dev : Fin 32)
    (s : PciTable) : c.scanDevice fuel scanBus bus dev s =
      (c.deviceFunctions bus dev).foldlM (fun s f => c.scanFunc fuel scanBus f s) s := by
  unfold scanDevice deviceFunctions
  split
  · rfl
  · split
    · rw [List.foldlM_cons]
      exact (bind_pure _).symm
    · rw [List.foldlM_map, List.foldlM_filter]
      simp only [decide_eq_true_eq]
      rfl

theorem scanBus_succ (depth : Nat) (bus : Byte) (s : PciTable) :
    c.scanBus fuel (depth + 1) bus s =
      (c.functions bus).foldlM (fun s f => c.scanFunc fuel (c.scanBus fuel depth) f s) s := by
  rw [functions, foldlM_flatMap]
  simp only [← scanDevice_eq]
  rfl

theorem pciScanAllBus_eq (depth : Nat) (devices : Byte → PciDevice) :
    c.pciScanAllBus fuel depth devices =
      c.hostBuses.foldlM (fun s b => c.scanBus fuel depth b s) ⟨devices, 0⟩ := by
  unfold pciScanAllBus hostBuses
  dsimp only
  split
  · rw [List.foldlM_cons]
    exact (bind_pure _).symm
  · rw [List.foldlM_map, List.foldlM_filter]
    simp only [decide_eq_true_eq, ite_not]
    rfl

/-- The list of capabilities ends within a number of passes. -/
def CapsEnd (c : ConfigSpace) (fuel : Nat) (f : PciFunc) : Prop :=
  ∃ capAddr, loop (c.capStep f) fuel (c.capPoint f) = some capAddr

theorem exists_readMsiInfo_iff {f : PciFunc} :
    (∃ msi, c.readMsiInfo fuel f = some msi) ↔ c.CapsEnd fuel f := by
  rw [CapsEnd, readMsiInfo]
  cases loop (c.capStep f) fuel (c.capPoint f) with
  | none => exact iff_of_false (by rintro ⟨_, ⟨⟩⟩) (by rintro ⟨_, ⟨⟩⟩)
  | some capAddr =>
      refine iff_of_true ?_ ⟨capAddr, rfl⟩
      rw [Option.bind_eq_bind, Option.bind_some]
      split
      · exact ⟨_, rfl⟩
      · exact ⟨_, rfl⟩

/-- A function is noted, and then what is behind it. -/
theorem scanFunc_eq_some_iff {scanBus : Byte → PciTable → Option PciTable} {B : Byte → Prop}
    {X : Byte → List PciFunc}
    (hbus : ∀ b s t, scanBus b s = some t ↔ B b ∧ t = c.note fuel s (X b)) (f : PciFunc)
    (s t : PciTable) : c.scanFunc fuel scanBus f s = some t ↔
      (c.CapsEnd fuel f ∧ ∀ b, c.bridgeTo f = some b → B b) ∧
        t = c.note fuel s (f :: (c.bridgeTo f).elim [] X) := by
  rw [← exists_readMsiInfo_iff, scanFunc]
  cases hmsi : c.readMsiInfo fuel f with
  | none => exact iff_of_false (by rintro ⟨⟩) (by rintro ⟨⟨⟨_, ⟨⟩⟩, -⟩, -⟩)
  | some msi =>
      have hdevice : c.device fuel f = ⟨f, c.headerType f, c.classCode f, msi⟩ := by
        rw [device, hmsi, Option.getD_some]
      rw [Option.bind_eq_bind, Option.bind_some, ← hdevice, note, List.foldl_cons]
      unfold bridgeTo
      split
      · rw [hbus, Option.elim_some]
        simp only [Option.some_inj, exists_eq', true_and, forall_eq']
        rfl
      · simp only [Option.some_inj, exists_eq', reduceCtorEq, false_imp_iff, implies_true,
          true_and, Option.elim_none, List.foldl_nil, Option.pure_def, eq_comm]

theorem note_flatMap {β : Type} (s : PciTable) (l : List β) (g : β → List PciFunc) :
    c.note fuel s (l.flatMap g) = l.foldl (fun s y => c.note fuel s (g y)) s := by
  rw [note, List.foldl_flatMap]
  rfl

/-- The scan of a bus notes what is below it, if it is not too deep and all lists end. -/
theorem scanBus_eq_some_iff (depth : Nat) (bus : Byte) (s t : PciTable) :
    c.scanBus fuel depth bus s = some t ↔
      (Bottoms c.functions c.bridgeTo depth bus ∧
        ∀ f ∈ below c.functions c.bridgeTo depth bus, c.CapsEnd fuel f) ∧
      t = c.note fuel s (below c.functions c.bridgeTo depth bus) := by
  induction depth generalizing bus s t with
  | zero => exact iff_of_false (by rintro ⟨⟩) fun h => h.1.1
  | succ depth ih =>
      rw [scanBus_succ, foldlM_eq_some_iff (fun f s t => scanFunc_eq_some_iff ih f s t), below,
        note_flatMap]
      refine and_congr_left fun _ => ?_
      simp only [List.mem_flatMap, List.mem_cons]
      constructor
      · intro h
        refine ⟨fun f hf b hb => ((h f hf).2 b hb).1, ?_⟩
        rintro g ⟨f, hf, rfl | hg⟩
        · exact (h g hf).1
        · cases hb : c.bridgeTo f with
          | none =>
              rw [hb, Option.elim_none] at hg
              cases hg
          | some b =>
              rw [hb, Option.elim_some] at hg
              exact ((h f hf).2 b hb).2 g hg
      · rintro ⟨hdeep, hcaps⟩ f hf
        refine ⟨hcaps f ⟨f, hf, .inl rfl⟩, fun b hb => ⟨hdeep f hf b hb, fun g hg => ?_⟩⟩
        refine hcaps g ⟨f, hf, .inr ?_⟩
        rw [hb, Option.elim_some]
        exact hg

/-- The scan notes what is below the buses of the host controllers. -/
theorem pciScanAllBus_eq_some_iff (depth : Nat) (devices : Byte → PciDevice) (t : PciTable) :
    c.pciScanAllBus fuel depth devices = some t ↔
      (∀ b ∈ c.hostBuses, Bottoms c.functions c.bridgeTo depth b ∧
        ∀ f ∈ below c.functions c.bridgeTo depth b, c.CapsEnd fuel f) ∧
      t = c.note fuel ⟨devices, 0⟩
        (c.hostBuses.flatMap (below c.functions c.bridgeTo depth)) := by
  rw [pciScanAllBus_eq, note_flatMap]
  exact foldlM_eq_some_iff (fun b s t => scanBus_eq_some_iff depth b s t) _ _ _

/-! ## Ending -/

theorem CapsEnd.mono {m n : Nat} {f : PciFunc} (h : c.CapsEnd m f) (hle : m ≤ n) :
    c.CapsEnd n f := by
  obtain ⟨capAddr, h⟩ := h
  exact ⟨capAddr, loop_mono h hle⟩

theorem nextCap_iff {f : PciFunc} {p q : Byte} :
    c.NextCap f p q ↔ c.capStep f p = some (.inl q) := by
  unfold NextCap capStep
  dsimp only
  split
  · next hzero => exact iff_of_false (fun h => h.1 hzero) (by rintro ⟨⟩)
  · next hp =>
      split
      · next hmsi => exact iff_of_false (fun h => h.2.1 hmsi) (by rintro ⟨⟩)
      · next hmsi =>
          rw [Option.some_inj, Sum.inl.injEq, eq_comm (a := q)]
          exact ⟨fun h => h.2.2, fun h => ⟨hp, hmsi, h⟩⟩

theorem capStep_ne_none (c : ConfigSpace) (f : PciFunc) (p : Byte) : c.capStep f p ≠ none := by
  unfold capStep
  dsimp only
  split
  · exact Option.some_ne_none _
  · split
    · exact Option.some_ne_none _
    · exact Option.some_ne_none _

/-- The list of capabilities ends just if it does not come to a capability again. -/
theorem exists_capsEnd_iff {f : PciFunc} : (∃ fuel, c.CapsEnd fuel f) ↔
    ∀ p, ReflTransGen (c.NextCap f) (c.capPoint f) p → ¬ TransGen (c.NextCap f) p p := by
  have hnext : c.NextCap f = fun p q => c.capStep f p = some (.inl q) :=
    funext fun p => funext fun q => propext nextCap_iff
  have hends : (∃ fuel, c.CapsEnd fuel f) ↔
      ∃ capAddr, Finishes (c.capStep f) (c.capPoint f) capAddr := by
    simp only [CapsEnd, ← exists_loop_iff]
    exact exists_comm
  rw [hends, exists_ends_iff_acc (c.capStep_ne_none f), ← acc_iff_of_finite, hnext]

/-- What is found below a bus is there. -/
theorem exists_of_mem_below' {depth : Nat} {r : Byte} {f : PciFunc} (hr : r ∈ c.hostBuses)
    (hf : f ∈ below c.functions c.bridgeTo depth r) : c.Exists f := by
  obtain ⟨b, hpath, hf⟩ := exists_of_mem_below hf
  obtain rfl := (mem_functions.mp hf).1
  exact ⟨⟨r, hr, hpath⟩, hf⟩

/-- The scan ends just if no bus that it comes to leads back to itself, and all lists end. -/
theorem exists_scan_iff {devices : Byte → PciDevice} :
    (∃ fuel depth t, c.pciScanAllBus fuel depth devices = some t) ↔
      (∀ b, c.Reached b → ¬ TransGen c.Leads b b) ∧
        ∀ f, c.Exists f → ∃ fuel, c.CapsEnd fuel f := by
  simp only [pciScanAllBus_eq_some_iff]
  constructor
  · rintro ⟨fuel, depth, t, h, -⟩
    refine ⟨?_, ?_⟩
    · rintro b ⟨r, hr, hpath⟩
      exact exists_bottoms_iff_of_finite.mp ⟨depth, (h r hr).1⟩ b hpath
    · rintro f ⟨⟨r, hr, hpath⟩, hf⟩
      exact ⟨fuel, (h r hr).2 f ((mem_below_iff (h r hr).1).mpr ⟨f.bus, hpath, hf⟩)⟩
  · rintro ⟨hbus, hcaps⟩
    obtain ⟨depth, hdepth⟩ : ∃ depth, ∀ r ∈ c.hostBuses,
        Bottoms c.functions c.bridgeTo depth r :=
      exists_forall_mem (fun r m n hle h => h.mono hle) fun r hr =>
        exists_bottoms_iff_of_finite.mpr fun b hpath => hbus b ⟨r, hr, hpath⟩
    obtain ⟨fuel, hfuel⟩ : ∃ fuel, ∀ f ∈ c.hostBuses.flatMap (below c.functions c.bridgeTo depth),
        c.CapsEnd fuel f := by
      refine exists_forall_mem (fun f m n hle h => h.mono hle) fun f hf => ?_
      obtain ⟨r, hr, hf⟩ := List.mem_flatMap.mp hf
      exact hcaps f (exists_of_mem_below' hr hf)
    refine ⟨fuel, depth, _, fun r hr => ⟨hdepth r hr, fun f hf => ?_⟩, rfl⟩
    exact hfuel f (List.mem_flatMap.mpr ⟨r, hr, hf⟩)

/-- The scan of all buses ends just if no bus that it comes to leads back to itself, and no
capability of a function that is there does. -/
theorem exists_pciScanAllBus_iff (c : ConfigSpace) (devices : Byte → PciDevice) :
    (∃ fuel depth t, c.pciScanAllBus fuel depth devices = some t) ↔
      (∀ b, c.Reached b → ¬ TransGen c.Leads b b) ∧
        ∀ f, c.Exists f → ∀ p, ReflTransGen (c.NextCap f) (c.capPoint f) p →
          ¬ TransGen (c.NextCap f) p p := by
  simp only [exists_scan_iff, exists_capsEnd_iff]

/-- The only function is a bridge whose secondary bus number is still 0. -/
def unsetBridge : ConfigSpace := fun bus dev func offset =>
  if bus = 0 ∧ dev = 0 ∧ func = 0 then
    if offset = 0 then 0x00011234 else if offset = 8 then 0x06040000
    else if offset = 0x0c then 0x00010000 else 0
  else 0xffffffff

/-- It leads back to its own bus, and the scan does not end. -/
theorem unsetBridge_not_scanned :
    ¬ ∃ devices fuel depth t, unsetBridge.pciScanAllBus fuel depth devices = some t := by
  rintro ⟨devices, fuel, depth, t, h⟩
  rw [pciScanAllBus_eq_some_iff] at h
  have hhost : (0 : Byte) ∈ unsetBridge.hostBuses := by decide
  have hedge : unsetBridge.Leads 0 0 := ⟨⟨0, 0, 0⟩, by decide, by decide⟩
  exact exists_bottoms_iff_of_finite.mp ⟨depth, (h.1 0 hhost).1⟩ 0 .refl (.single hedge)

end ConfigSpace

end ClayFigure
