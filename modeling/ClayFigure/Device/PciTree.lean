/-
# Every PCI function once

If the buses under the host controllers form a tree, the scan finds every function, and none of
them twice. The counter of the table has eight bits, and with 256 functions, as many as the table
has room for, it is 0 again. All that is asked of the table later goes by that counter.
-/

import ClayFigure.Device.Pci
import Mathlib.Data.Set.Card

namespace ClayFigure

open ClayFigure.Math Relation

/-! ## The code -/

/-- Whether a device has the class, by the comparison in `pci_dev_count`. -/
def PciDevice.isClass (baseClass subClass progIf : Byte) (d : PciDevice) : Bool :=
  (baseClass.toUInt32 <<< 16) ||| (subClass.toUInt32 <<< 8) ||| progIf.toUInt32 =
    (d.classCode >>> 8) &&& 0x00ffffff

namespace PciTable

/-- `pci_devices[0..number_of_pci_device)`, what the loops below go over. -/
def found (s : PciTable) : List PciDevice :=
  (List.range s.number.toNat).map fun i => s.devices (UInt8.ofNat i)

/-- `pci_dev_count`. -/
def pciDevCount (s : PciTable) (baseClass subClass progIf : Byte) : Nat :=
  s.found.foldl (fun ret d => if d.isClass baseClass subClass progIf then ret + 1 else ret) 0

/-- The loop of `pci_dev_match`. -/
def matchFrom (isClass : PciDevice → Bool) (index : Nat) : Nat → List PciDevice → Option PciDevice
  | _, [] => none
  | idx, d :: ds =>
      if isClass d then
        if idx = index then some d else matchFrom isClass index (idx + 1) ds
      else matchFrom isClass index idx ds

/-- `pci_dev_match`; `none` is `NULL`. -/
def pciDevMatch (s : PciTable) (baseClass subClass progIf : Byte) (index : Nat) :
    Option PciDevice :=
  matchFrom (·.isClass baseClass subClass progIf) index 0 s.found

end PciTable

/-! ## Trees -/

namespace ConfigSpace

/-- The buses under the host controllers form a tree: no bridge leads to the bus of a host
controller, no two of them lead to the same bus, and there is no cycle. -/
structure IsTree (c : ConfigSpace) : Prop where
  root : ∀ f b, c.Exists f → c.bridgeTo f = some b → b ∉ c.hostBuses
  parent : ∀ f g b, c.Exists f → c.Exists g → c.bridgeTo f = some b → c.bridgeTo g = some b → f = g
  acyclic : ∀ b, c.Reached b → ¬ TransGen c.Leads b b

/-- A function has the class. -/
def HasClass (c : ConfigSpace) (baseClass subClass progIf : Byte) (f : PciFunc) : Prop :=
  (baseClass.toUInt32 <<< 16) ||| (subClass.toUInt32 <<< 8) ||| progIf.toUInt32 =
    (c.classCode f >>> 8) &&& 0x00ffffff

/-- The table holds every function that is there, and no other, once; the functions of a class are
counted, and each of them is matched by one index. -/
structure NotedOnce (c : ConfigSpace) (s : PciTable) : Prop where
  nodup : (s.found.map (·.place)).Nodup
  mem : ∀ f, f ∈ s.found.map (·.place) ↔ c.Exists f
  count : ∀ baseClass subClass progIf, s.pciDevCount baseClass subClass progIf =
    {f | c.Exists f ∧ c.HasClass baseClass subClass progIf f}.ncard
  matched : ∀ baseClass subClass progIf f, c.Exists f → c.HasClass baseClass subClass progIf f →
    ∃! index, ∃ d, s.pciDevMatch baseClass subClass progIf index = some d ∧ d.place = f

/-- The scan ends with such a table. -/
def ScansOnce (c : ConfigSpace) (devices : Byte → PciDevice) : Prop :=
  ∃ fuel depth s, c.pciScanAllBus fuel depth devices = some s ∧ c.NotedOnce s

end ConfigSpace

/-! ## The table -/

namespace PciTable

variable {s : PciTable} {d : PciDevice}

theorem found_addDevice (h : s.number.toNat < 255) : (s.addDevice d).found = s.found ++ [d] := by
  have hnumber : (s.number + 1).toNat = s.number.toNat + 1 := by
    rw [UInt8.toNat_add]
    exact Nat.mod_eq_of_lt (Nat.succ_lt_succ h)
  show (List.range (s.number + 1).toNat).map _ = _
  rw [hnumber, List.range_succ, List.map_append, List.map_singleton]
  congr 1
  · refine List.map_congr_left fun i hi => Function.update_of_ne (fun heq => ?_) _ _
    rw [List.mem_range] at hi
    have hval := congrArg UInt8.toNat heq
    rw [UInt8.toNat_ofNat_of_lt' (by exact hi.trans (h.trans (by decide)))] at hval
    exact Nat.ne_of_lt hi hval
  · rw [UInt8.ofNat_toNat]
    exact congrArg (fun x => [x]) (Function.update_self _ _ _)

/-- The counter of `pci_dev_count` is the number of devices of the class. -/
theorem pciDevCount_eq (s : PciTable) (baseClass subClass progIf : Byte) :
    s.pciDevCount baseClass subClass progIf =
      (s.found.filter (·.isClass baseClass subClass progIf)).length := by
  have hfold (ds : List PciDevice) (n : Nat) :
      ds.foldl (fun ret d => if d.isClass baseClass subClass progIf then ret + 1 else ret) n =
        n + (ds.filter (·.isClass baseClass subClass progIf)).length := by
    induction ds generalizing n with
    | nil => rfl
    | cons d ds ih =>
        rw [List.foldl_cons, ih]
        by_cases hd : d.isClass baseClass subClass progIf
        · rw [if_pos hd, List.filter_cons_of_pos hd, List.length_cons]
          exact Nat.add_right_comm n 1 _
        · rw [if_neg hd, List.filter_cons_of_neg hd]
  exact (hfold s.found 0).trans (Nat.zero_add _)

/-- `pci_dev_match` gives the devices of the class in their order. -/
theorem matchFrom_eq (isClass : PciDevice → Bool) {index idx : Nat} (h : idx ≤ index)
    (ds : List PciDevice) : matchFrom isClass index idx ds = (ds.filter isClass)[index - idx]? := by
  induction ds generalizing idx with
  | nil => rfl
  | cons d ds ih =>
      rw [matchFrom, List.filter_cons]
      split
      · split
        · next heq =>
            rw [heq, Nat.sub_self]
            rfl
        · next hne =>
            have hlt : idx + 1 ≤ index := Nat.lt_of_le_of_ne h hne
            rw [ih hlt, ← List.getElem?_cons_succ (a := d)]
            congr 1
            omega
      · exact ih h

theorem pciDevMatch_eq (s : PciTable) (baseClass subClass progIf : Byte) (index : Nat) :
    s.pciDevMatch baseClass subClass progIf index =
      (s.found.filter (·.isClass baseClass subClass progIf))[index]? :=
  matchFrom_eq _ (Nat.zero_le index) _

end PciTable

namespace ConfigSpace

variable {c : ConfigSpace} {fuel : Nat} {fs : List PciFunc}

/-- The table holds what is noted as long as the counter can count it. -/
theorem found_note {s : PciTable} (h : s.number.toNat + fs.length ≤ 255) :
    (c.note fuel s fs).found = s.found ++ fs.map (c.device fuel) := by
  induction fs generalizing s with
  | nil => exact (List.append_nil _).symm
  | cons f fs ih =>
      rw [List.length_cons] at h
      have hnumber : (s.number + 1).toNat = s.number.toNat + 1 := by
        rw [UInt8.toNat_add]
        exact Nat.mod_eq_of_lt (by show s.number.toNat + 1 < 256; omega)
      have hroom : (s.addDevice (c.device fuel f)).number.toNat + fs.length ≤ 255 := by
        show (s.number + 1).toNat + fs.length ≤ 255
        omega
      rw [note, List.foldl_cons]
      refine (ih hroom).trans ?_
      rw [PciTable.found_addDevice (by omega), List.append_assoc]
      rfl

/-! ## The functions of a tree -/

theorem nodup_deviceFunctions (bus : Byte) (dev : Fin 32) : (c.deviceFunctions bus dev).Nodup := by
  unfold deviceFunctions
  split
  · exact List.nodup_nil
  · split
    · exact List.nodup_singleton _
    · refine List.Nodup.map ?_ ((List.nodup_finRange 8).filter _)
      rintro _ _ ⟨⟩
      rfl

theorem nodup_functions (bus : Byte) : (c.functions bus).Nodup := by
  rw [functions, List.nodup_flatMap]
  refine ⟨fun dev _ => nodup_deviceFunctions bus dev, ?_⟩
  refine (List.nodup_finRange 32).imp fun hne f hf hf' => hne ?_
  exact (mem_deviceFunctions.mp hf).2.1.symm.trans (mem_deviceFunctions.mp hf').2.1

theorem nodup_hostBuses : c.hostBuses.Nodup := by
  unfold hostBuses
  split
  · exact List.nodup_singleton _
  · refine List.Nodup.map ?_ ((List.nodup_finRange 8).filter _)
    intro f g heq
    have hval := congrArg UInt8.toNat heq
    rw [UInt8.toNat_ofNat_of_lt' (by exact f.isLt.trans (by decide)),
      UInt8.toNat_ofNat_of_lt' (by exact g.isLt.trans (by decide))] at hval
    exact Fin.ext hval

theorem reached_host {r : Byte} (hr : r ∈ c.hostBuses) : c.Reached r := ⟨r, hr, .refl⟩

theorem exists_of_mem {b : Byte} {f : PciFunc} (hb : c.Reached b) (hf : f ∈ c.functions b) :
    c.Exists f := by
  obtain rfl := (mem_functions.mp hf).1
  exact ⟨hb, hf⟩

theorem IsTree.forest (h : c.IsTree) : Forest c.functions c.bridgeTo c.Reached where
  closed := by
    rintro a b ⟨r, hr, hpath⟩ hedge
    exact ⟨r, hr, hpath.tail hedge⟩
  nodup a _ := nodup_functions a
  owner a b f _ _ ha hb := (mem_functions.mp ha).1.symm.trans (mem_functions.mp hb).1
  parent a b f g d ha hb hf hg hfd hgd :=
    h.parent f g d (exists_of_mem ha hf) (exists_of_mem hb hg) hfd hgd
  acyclic := h.acyclic

/-- Host controllers are not above each other. -/
theorem IsTree.not_above (h : c.IsTree) {r q : Byte} (hr : r ∈ c.hostBuses) (hq : q ∈ c.hostBuses)
    (hne : r ≠ q) : ¬ ReflTransGen c.Leads r q := by
  intro hpath
  rcases hpath.cases_tail with heq | ⟨b, hpath, f, hf, hfq⟩
  · exact hne heq.symm
  · exact h.root f q (exists_of_mem ⟨r, hr, hpath⟩ hf) hfq hq

/-- All functions in the order of the scan. -/
theorem IsTree.nodup (h : c.IsTree) (depth : Nat) :
    (c.hostBuses.flatMap (below c.functions c.bridgeTo depth)).Nodup := by
  rw [List.nodup_flatMap]
  refine ⟨fun r hr => h.forest.nodup_below (reached_host hr) depth, ?_⟩
  refine nodup_hostBuses.imp_of_mem fun hr hq hne => ?_
  exact h.forest.disjoint (reached_host hr) (reached_host hq) (h.not_above hr hq hne)
    (h.not_above hq hr hne.symm) depth depth

theorem mem_below_hosts {depth : Nat}
    (hdepth : ∀ r ∈ c.hostBuses, Bottoms c.functions c.bridgeTo depth r) (f : PciFunc) :
    f ∈ c.hostBuses.flatMap (below c.functions c.bridgeTo depth) ↔ c.Exists f := by
  rw [List.mem_flatMap]
  constructor
  · rintro ⟨r, hr, hf⟩
    exact exists_of_mem_below' hr hf
  · rintro ⟨⟨r, hr, hpath⟩, hf⟩
    exact ⟨r, hr, (mem_below_iff (hdepth r hr)).mpr ⟨f.bus, hpath, hf⟩⟩

/-! ## Once -/

/-- A list without repetitions has as many members as its length says. -/
theorem ncard_of_nodup {P : PciFunc → Prop} (hnodup : fs.Nodup) (hmem : ∀ f, f ∈ fs ↔ P f) :
    {f | P f}.ncard = fs.length := by
  have hset : {f | P f} = (fs.toFinset : Set PciFunc) := by
    ext f
    rw [Finset.mem_coe, List.mem_toFinset]
    exact (hmem f).symm
  rw [hset, Set.ncard_coe_finset, List.toFinset_card_of_nodup hnodup]

theorem map_place (fuel : Nat) (fs : List PciFunc) :
    (fs.map (c.device fuel)).map (·.place) = fs := by
  rw [List.map_map]
  exact List.map_id fs

theorem isClass_device (fuel : Nat) (baseClass subClass progIf : Byte) (f : PciFunc) :
    (c.device fuel f).isClass baseClass subClass progIf = true ↔
      c.HasClass baseClass subClass progIf f := decide_eq_true_iff

/-- A table that holds every function that is there is right. -/
theorem notedOnce_of_found {s : PciTable} (hfound : s.found = fs.map (c.device fuel))
    (hnodup : fs.Nodup) (hmem : ∀ f, f ∈ fs ↔ c.Exists f) : c.NotedOnce s := by
  have hfilter (baseClass subClass progIf : Byte) :
      s.found.filter (·.isClass baseClass subClass progIf) =
        (fs.filter fun f => (c.device fuel f).isClass baseClass subClass progIf).map
          (c.device fuel) := by
    rw [hfound, List.filter_map]
    rfl
  have hclass (baseClass subClass progIf : Byte) (f : PciFunc) :
      (f ∈ fs.filter fun f => (c.device fuel f).isClass baseClass subClass progIf) ↔
        c.Exists f ∧ c.HasClass baseClass subClass progIf f := by
    rw [List.mem_filter, hmem, isClass_device]
  refine ⟨?_, fun f => ?_, fun baseClass subClass progIf => ?_,
    fun baseClass subClass progIf f hf hc => ?_⟩
  · rw [hfound, map_place]
    exact hnodup
  · rw [hfound, map_place]
    exact hmem f
  · rw [PciTable.pciDevCount_eq, hfilter, List.length_map]
    exact (ncard_of_nodup (hnodup.filter _) (hclass baseClass subClass progIf)).symm
  · simp only [PciTable.pciDevMatch_eq, hfilter, List.getElem?_map, Option.map_eq_some_iff]
    obtain ⟨index, hlt, heq⟩ := List.mem_iff_getElem.mp
      ((hclass baseClass subClass progIf f).mpr ⟨hf, hc⟩)
    refine ⟨index, ⟨_, ⟨f, List.getElem?_eq_some_iff.mpr ⟨hlt, heq⟩, rfl⟩, rfl⟩, ?_⟩
    rintro index' ⟨_, ⟨g, hg, rfl⟩, hplace⟩
    obtain ⟨hlt', heq'⟩ := List.getElem?_eq_some_iff.mp hg
    exact (hnodup.filter _).getElem_inj_iff.mp ((heq'.trans hplace).trans heq.symm)

/-- The counter counts no more than 255 functions. -/
theorem ncard_le_of_scansOnce {devices : Byte → PciDevice} (h : c.ScansOnce devices) :
    {f | c.Exists f}.ncard ≤ 255 := by
  obtain ⟨-, -, s, -, honce⟩ := h
  rw [ncard_of_nodup honce.nodup honce.mem, List.length_map, PciTable.found, List.length_map,
    List.length_range]
  exact Nat.le_of_lt_succ s.number.toNat_lt

/-- In a tree of buses the scan leaves every function in the table once just if the lists of
capabilities end and there are at most 255 functions. -/
theorem scansOnce_iff (c : ConfigSpace) (htree : c.IsTree) (devices : Byte → PciDevice) :
    c.ScansOnce devices ↔ (∀ f, c.Exists f → ∀ p, ReflTransGen (c.NextCap f) (c.capPoint f) p →
      ¬ TransGen (c.NextCap f) p p) ∧ {f | c.Exists f}.ncard ≤ 255 := by
  simp only [← exists_capsEnd_iff]
  constructor
  · intro h
    refine ⟨?_, ncard_le_of_scansOnce h⟩
    obtain ⟨fuel, depth, s, hscan, -⟩ := h
    exact (exists_scan_iff.mp ⟨fuel, depth, s, hscan⟩).2
  · rintro ⟨hcaps, hcount⟩
    obtain ⟨fuel, depth, s, hscan⟩ := @exists_scan_iff c devices |>.mpr ⟨htree.acyclic, hcaps⟩
    refine ⟨fuel, depth, s, hscan, ?_⟩
    obtain ⟨hall, rfl⟩ := (pciScanAllBus_eq_some_iff depth devices s).mp hscan
    have hmem := mem_below_hosts fun r hr => (hall r hr).1
    rw [ncard_of_nodup (htree.nodup depth) hmem] at hcount
    refine notedOnce_of_found (found_note ?_) (htree.nodup depth) hmem
    exact Nat.le_trans (Nat.le_of_eq (Nat.zero_add _)) hcount

/-- 32 devices on bus 0, each of eight functions; the host controllers are those of the first one,
and there is nothing on the other buses. -/
def fullBus : ConfigSpace := fun bus _ _ offset =>
  if bus = 0 then
    if offset = 0 then 0x00011234 else if offset = 0x0c then 0x00800000 else 0
  else 0xffffffff

/-- The functions of that bus. -/
theorem fullBus_exists_iff (f : PciFunc) : fullBus.Exists f ↔ f.bus = 0 := by
  obtain ⟨bus, dev, func⟩ := f
  by_cases hbus : bus = 0
  · subst hbus
    -- all functions of the bus have the same registers
    have hvendor : fullBus.vendorId ⟨0, 0, 0⟩ ≠ 0xffff := by decide
    have hheader : fullBus.headerType ⟨0, 0, 0⟩ &&& 0x80 ≠ 0 := by decide
    have hhost : (0 : Byte) ∈ fullBus.hostBuses := by decide
    exact iff_of_true
      ⟨reached_host hhost, mem_functions.mpr ⟨rfl, hvendor, hvendor, .inr hheader⟩⟩ rfl
  · refine iff_of_false (fun h => (mem_functions.mp h.2).2.2.1 ?_) hbus
    have hread : fullBus.pciConfigRead ⟨bus, dev, func⟩ 0 = 0xffffffff := if_neg hbus
    rw [vendorId, hread]
    rfl

theorem fullBus_bridgeTo {f : PciFunc} (hf : fullBus.Exists f) : fullBus.bridgeTo f = none := by
  have hbus := (fullBus_exists_iff f).mp hf
  obtain ⟨bus, dev, func⟩ := f
  obtain rfl : bus = 0 := hbus
  have hbridge : fullBus.bridgeTo ⟨0, 0, 0⟩ = none := by decide
  exact hbridge

theorem fullBus_isTree : fullBus.IsTree where
  root f b hf hb := by
    cases (fullBus_bridgeTo hf).symm.trans hb
  parent f g b hf _ hb _ := by
    cases (fullBus_bridgeTo hf).symm.trans hb
  acyclic b hb hcycle := by
    obtain ⟨d, ⟨f, hf, hd⟩, -⟩ := TransGen.head'_iff.mp hcycle
    cases (fullBus_bridgeTo (exists_of_mem hb hf)).symm.trans hd

theorem fullBus_ncard : {f | fullBus.Exists f}.ncard = 256 := by
  have hset : {f | fullBus.Exists f} =
      (Finset.univ.image fun p : Fin 32 × Fin 8 => PciFunc.mk 0 p.1 p.2 : Finset PciFunc) := by
    ext f
    rw [Set.mem_ofPred_eq, fullBus_exists_iff, Finset.mem_coe, Finset.mem_image]
    constructor
    · intro hbus
      exact ⟨(f.device, f.func), Finset.mem_univ _, hbus ▸ rfl⟩
    · rintro ⟨p, -, rfl⟩
      rfl
  rw [hset, Set.ncard_coe_finset, Finset.card_image_of_injective]
  · rw [Finset.card_univ, Fintype.card_prod, Fintype.card_fin, Fintype.card_fin]
  · rintro ⟨d, f⟩ ⟨d', f'⟩ heq
    cases heq
    rfl

/-- 256 functions fit into the table, and the counter is 0 after them. -/
theorem fullBus_not_scansOnce : fullBus.IsTree ∧ {f | fullBus.Exists f}.ncard ≤ 256 ∧
    ¬ fullBus.ScansOnce fun _ => ⟨⟨0, 0, 0⟩, 0, 0, none⟩ := by
  refine ⟨fullBus_isTree, fullBus_ncard.le, fun h => ?_⟩
  have hcount := ncard_le_of_scansOnce h
  rw [fullBus_ncard] at hcount
  exact absurd hcount (by decide)

/-- A bridge to bus 1, and behind it a function with two capabilities, of which the second one is
for message signalled interrupts. -/
def oneBridge : ConfigSpace := fun bus dev _ offset =>
  if dev.val = 0 ∧ bus = 0 then
    if offset = 0 then 0x00011234 else if offset = 8 then 0x06040000
    else if offset = 0x18 then 0x00000100 else 0
  else if dev.val = 0 ∧ bus = 1 then
    if offset = 0 then 0x00021234 else if offset = 8 then 0x0c033000
    else if offset = 0x34 then 0x40 else if offset = 0x40 then 0x5001
    else if offset = 0x50 then 5 else 0
  else 0xffffffff

/-- The two functions. -/
theorem eq_of_mem_oneBridge {b : Byte} {f : PciFunc} (hf : f ∈ oneBridge.functions b) :
    (b = 0 ∧ f = ⟨0, 0, 0⟩) ∨ (b = 1 ∧ f = ⟨1, 0, 0⟩) := by
  obtain ⟨bus, dev, func⟩ := f
  obtain ⟨rfl, hvendor, -, hfunc⟩ := mem_functions.mp hf
  by_cases hzero : dev.val = 0 ∧ bus = 0
  · obtain ⟨hdev, rfl⟩ := hzero
    obtain rfl : dev = 0 := Fin.ext hdev
    have hsingle : oneBridge.headerType ⟨0, 0, 0⟩ &&& 0x80 = 0 := by decide
    obtain rfl : func = 0 := hfunc.resolve_right (not_not.mpr hsingle)
    exact .inl ⟨rfl, rfl⟩
  · by_cases hone : dev.val = 0 ∧ bus = 1
    · obtain ⟨hdev, rfl⟩ := hone
      obtain rfl : dev = 0 := Fin.ext hdev
      have hsingle : oneBridge.headerType ⟨1, 0, 0⟩ &&& 0x80 = 0 := by decide
      obtain rfl : func = 0 := hfunc.resolve_right (not_not.mpr hsingle)
      exact .inr ⟨rfl, rfl⟩
    · have hread : oneBridge.pciConfigRead ⟨bus, dev, 0⟩ 0 = 0xffffffff :=
        (if_neg hzero).trans (if_neg hone)
      refine absurd ?_ hvendor
      rw [vendorId, hread]
      rfl

theorem oneBridge_bridgeTo {b d : Byte} {f : PciFunc} (hf : f ∈ oneBridge.functions b)
    (hd : oneBridge.bridgeTo f = some d) : b = 0 ∧ d = 1 ∧ f = ⟨0, 0, 0⟩ := by
  rcases eq_of_mem_oneBridge hf with ⟨rfl, rfl⟩ | ⟨rfl, rfl⟩
  · have hbridge : oneBridge.bridgeTo ⟨0, 0, 0⟩ = some 1 := by decide
    exact ⟨rfl, Option.some.inj (hd.symm.trans hbridge), rfl⟩
  · have hbridge : oneBridge.bridgeTo ⟨1, 0, 0⟩ = none := by decide
    cases hd.symm.trans hbridge

theorem oneBridge_isTree : oneBridge.IsTree where
  root f b hf hb := by
    obtain ⟨-, rfl, -⟩ := oneBridge_bridgeTo hf.2 hb
    decide
  parent f g b hf hg hb hb' := by
    rw [(oneBridge_bridgeTo hf.2 hb).2.2, (oneBridge_bridgeTo hg.2 hb').2.2]
  acyclic b _ hcycle := by
    obtain ⟨d, ⟨f, hf, hd⟩, hback⟩ := TransGen.head'_iff.mp hcycle
    obtain ⟨rfl, rfl, -⟩ := oneBridge_bridgeTo hf hd
    rcases hback.cases_head with heq | ⟨e, ⟨g, hg, he⟩, -⟩
    · cases heq
    · cases (oneBridge_bridgeTo hg he).1

/-- The table holds both of them. -/
theorem oneBridge_scansOnce : oneBridge.ScansOnce fun _ => ⟨⟨0, 0, 0⟩, 0, 0, none⟩ := by
  refine (scansOnce_iff oneBridge oneBridge_isTree _).mpr ⟨fun f hf => ?_, ?_⟩
  · rw [← exists_capsEnd_iff]
    rcases eq_of_mem_oneBridge hf.2 with ⟨-, rfl⟩ | ⟨-, rfl⟩
    · exact ⟨1, 0, by decide⟩
    · exact ⟨2, 0x50, by decide⟩
  · have hsub : {f | oneBridge.Exists f} ⊆ (({⟨0, 0, 0⟩, ⟨1, 0, 0⟩} : Finset PciFunc) : Set _) := by
      intro f hf
      rcases eq_of_mem_oneBridge hf.2 with ⟨-, rfl⟩ | ⟨-, rfl⟩ <;> simp
    have hle := Set.ncard_le_ncard hsub (Finset.finite_toSet _)
    rw [Set.ncard_coe_finset] at hle
    exact hle.trans (by decide)

end ConfigSpace

end ClayFigure
