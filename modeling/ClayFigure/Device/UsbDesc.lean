/-
# The descriptors of a USB device

A device describes each of its configurations by a block of descriptors, one behind another, each
of which begins with its length and its type. `configure_usb_device` looks in the block for an
interface that there is a driver for, and `usb_find_desc` looks behind the interface for an
endpoint. Both step by the lengths that the device has given.
-/

import ClayFigure.Lib.String
import ClayFigure.Math.LittleEndian
import ClayFigure.Math.Loop

namespace ClayFigure

open ClayFigure.Math

/-! ## The code -/

/-- The block of a configuration, the bytes that `wTotalLength` says it has. If these are too few
to hold that field, it stands outside of the block. -/
structure UsbConfig where
  bytes : List Byte
  length_eq : 4 ≤ bytes.length → ofLE ((bytes.drop 2).take 2) = bytes.length

/-- `get_device_config`. The device answers the request for the descriptor itself and then the
one for as many bytes as it names, if the transfers do not fail; `behind` is in the memory after
the new block. -/
def getDeviceConfig (header : Option (List Byte)) (hasMemory : Bool)
    (answer : Nat → Option (List Byte)) (behind : List Byte) : Option (List Byte) := do
  let totalLength := ofLE (((← header).drop 2).take 2)
  if hasMemory then
    let config ← answer totalLength
    if ofLE (((config ++ behind).drop 2).take 2) = totalLength then return config
    else none
  else none

/-- A configuration that the device has given is as long as it says. -/
theorem ofLE_of_getDeviceConfig {header : Option (List Byte)} {hasMemory : Bool}
    {answer : Nat → Option (List Byte)} {behind bytes : List Byte}
    (hanswer : ∀ n config, answer n = some config → config.length = n)
    (h : getDeviceConfig header hasMemory answer behind = some bytes) (hlen : 4 ≤ bytes.length) :
    ofLE ((bytes.drop 2).take 2) = bytes.length := by
  simp only [getDeviceConfig, Option.bind_eq_bind, Option.bind_eq_some_iff] at h
  obtain ⟨descriptor, -, h⟩ := h
  split at h
  · rw [Option.bind_eq_some_iff] at h
    obtain ⟨config, hconfig, h⟩ := h
    split at h
    · next heq =>
        cases h
        have hdrop : 2 ≤ (bytes.drop 2).length := by
          rw [List.length_drop]
          omega
        rw [List.drop_append_of_le_length (by omega), List.take_append_of_le_length hdrop] at heq
        rw [heq, hanswer _ _ hconfig]
    · cases h
  · cases h

namespace UsbConfig

/-- Whether there is a driver for the interface: a hub, a mass storage (bulk or attached SCSI) or
a boot device for people. -/
def isSupported (c : UsbConfig) (iface : Nat) : Option Bool := do
  let bInterfaceClass ← c.bytes[iface + 5]?
  if bInterfaceClass = 9 then return true
  else if bInterfaceClass = 8 then
    let bInterfaceProtocol ← c.bytes[iface + 7]?
    return bInterfaceProtocol = 0x50 || bInterfaceProtocol = 0x62
  else if bInterfaceClass = 3 then
    let bInterfaceSubClass ← c.bytes[iface + 6]?
    return bInterfaceSubClass = 1
  else return false

/-- One pass of the search for an interface. -/
def interfaceStep (c : UsbConfig) (configEnd : Nat) (s : Nat × Nat) :
    Option ((Nat × Nat) ⊕ Option Nat) :=
  let (iface, numIface) := s
  if numIface = 0 then some (.inr none)
  else do
    let bLength ← c.bytes[iface]?
    if configEnd < iface + bLength.toNat then return .inr none
    else
      let bDescriptorType ← c.bytes[iface + 1]?
      if bDescriptorType = 4 then
        if ← c.isSupported iface then return .inr (some iface)
        else return .inl (iface + bLength.toNat, numIface - 1)
      else return .inl (iface + bLength.toNat, numIface)

/-- The interface that `configure_usb_device` finds, with at most `fuel` passes. -/
def findInterface (c : UsbConfig) (fuel : Nat) : Option (Option Nat) := do
  let numIface ← c.bytes[4]?
  let wTotalLength := ofLE (← memcpy (c.bytes.drop 2) 2)
  loop (c.interfaceStep wTotalLength) fuel (9, numIface.toNat)

/-- Whether the descriptor is that of an endpoint of the type and the direction. -/
def isEndpoint (c : UsbConfig) (type dir : Int) (epdesc : Nat) : Option Bool := do
  let bDescriptorType ← c.bytes[epdesc + 1]?
  if bDescriptorType = 5 then
    let bEndpointAddress ← c.bytes[epdesc + 2]?
    if (bEndpointAddress &&& 0x80).toNat = dir then
      let bmAttributes ← c.bytes[epdesc + 3]?
      return decide ((bmAttributes &&& 3).toNat = type)
    else return false
  else return false

/-- One pass of `usb_find_desc`. -/
def endpointStep (c : UsbConfig) (type dir : Int) (ifaceEnd epdesc : Nat) :
    Option (Nat ⊕ Option Nat) :=
  if ifaceEnd ≤ epdesc then some (.inr none)
  else do
    let bDescriptorType ← c.bytes[epdesc + 1]?
    if bDescriptorType = 4 then return .inr none
    else if ← c.isEndpoint type dir epdesc then return .inr (some epdesc)
    else
      let bLength ← c.bytes[epdesc]?
      return .inl (epdesc + bLength.toNat)

/-- `usb_find_desc`, with at most `fuel` passes; `imax` is what is left of the block from the
interface on. -/
def usbFindDesc (c : UsbConfig) (type dir : Int) (iface fuel : Nat) : Option (Option Nat) :=
  let imax := c.bytes.length - iface
  loop (c.endpointStep type dir (iface + imax)) fuel (iface + 9)

/-! ## The descriptors that the searches come to -/

/-- The descriptor at a place is in the block, with the bytes the code has for it and with as many
as it says. -/
def Inside (c : UsbConfig) (p size : Nat) : Prop :=
  p + size ≤ c.bytes.length ∧
    ∀ length, c.bytes[p]? = some length → p + length.toNat ≤ c.bytes.length

/-- The search for an interface comes to the descriptor at a place, with a number of interfaces
to go. -/
inductive ComesTo (c : UsbConfig) : Nat → Nat → Prop
  | first {num : Byte} (hnum : c.bytes[4]? = some num) : ComesTo c 9 num.toNat
  | other {p n : Nat} {length type : Byte} (h : ComesTo c p (n + 1))
      (hlength : c.bytes[p]? = some length) (hfits : p + length.toNat ≤ c.bytes.length)
      (htype : c.bytes[p + 1]? = some type) (hne : type ≠ 4) :
      ComesTo c (p + length.toNat) (n + 1)
  | interface {p n : Nat} {length : Byte} (h : ComesTo c p (n + 1))
      (hlength : c.bytes[p]? = some length) (hfits : p + length.toNat ≤ c.bytes.length)
      (htype : c.bytes[p + 1]? = some 4) (hsupported : c.isSupported p = some false) :
      ComesTo c (p + length.toNat) n

/-- What has to hold of a descriptor among those before the interface: unless it goes beyond the
block, what is read of it is in the block, and it has a length or is an interface; if there is a
driver for it, it is in the block as a whole. -/
def InterfaceSound (c : UsbConfig) (p : Nat) : Prop :=
  ∃ length, c.bytes[p]? = some length ∧ (p + length.toNat ≤ c.bytes.length →
    ∃ type, c.bytes[p + 1]? = some type ∧ (type ≠ 4 → length ≠ 0) ∧
      (type = 4 → ∃ b, c.isSupported p = some b ∧ (b = true → p + 9 ≤ c.bytes.length)))

/-- The first interface there is a driver for. -/
def IsFound (c : UsbConfig) (p : Nat) : Prop :=
  ∃ n length, c.ComesTo p (n + 1) ∧ c.bytes[p]? = some length ∧
    p + length.toNat ≤ c.bytes.length ∧ c.bytes[p + 1]? = some 4 ∧ c.isSupported p = some true

/-- The search for an endpoint of the interface comes to the descriptor at a place. -/
inductive ComesToEndpoint (c : UsbConfig) (type dir : Int) (iface : Nat) : Nat → Prop
  | first : ComesToEndpoint c type dir iface (iface + 9)
  | next {p : Nat} {length t : Byte} (h : ComesToEndpoint c type dir iface p)
      (htype : c.bytes[p + 1]? = some t) (hne : t ≠ 4)
      (hother : c.isEndpoint type dir p = some false) (hlength : c.bytes[p]? = some length) :
      ComesToEndpoint c type dir iface (p + length.toNat)

/-- What has to hold of a descriptor behind the interface: if it begins in the block, what is read
of it is there too, and it has a length, or is in the block as a whole if it is the one looked
for. -/
def EndpointSound (c : UsbConfig) (type dir : Int) (p : Nat) : Prop :=
  p < c.bytes.length → ∃ t, c.bytes[p + 1]? = some t ∧ (t ≠ 4 →
    ∃ b, c.isEndpoint type dir p = some b ∧ (b = true → c.Inside p 7) ∧
      (b = false → c.bytes[p]? ≠ some 0))

/-- Both searches end without an access outside of the block, and what they find is inside. -/
def SearchesSafely (c : UsbConfig) (type dir : Int) : Prop :=
  ∃ found, (∃ fuel, c.findInterface fuel = some found) ∧ ∀ iface, found = some iface →
    c.Inside iface 9 ∧ ∃ desc, (∃ fuel, c.usbFindDesc type dir iface fuel = some desc) ∧
      ∀ epdesc, desc = some epdesc → c.Inside epdesc 7

/-! ## The search for an interface -/

variable {c : UsbConfig} {p n : Nat} {length : Byte}

theorem interfaceStep_zero (c : UsbConfig) (configEnd p : Nat) :
    c.interfaceStep configEnd (p, 0) = some (.inr none) := rfl

theorem interfaceStep_succ (c : UsbConfig) (configEnd p n : Nat) :
    c.interfaceStep configEnd (p, n + 1) = c.bytes[p]?.bind fun length =>
      if configEnd < p + length.toNat then some (.inr none)
      else c.bytes[p + 1]?.bind fun type =>
        if type = 4 then (c.isSupported p).map fun b =>
          if b then .inr (some p) else .inl (p + length.toNat, n)
        else some (.inl (p + length.toNat, n + 1)) := by
  dsimp only [interfaceStep]
  rw [if_neg (Nat.succ_ne_zero n)]
  refine congrArg (Option.bind c.bytes[p]?) (funext fun length => ?_)
  split
  · rfl
  · refine congrArg (Option.bind c.bytes[p + 1]?) (funext fun type => ?_)
    split
    · cases c.isSupported p with
      | none => rfl
      | some b => cases b <;> rfl
    · rfl

theorem interfaceStep_beyond (hlength : c.bytes[p]? = some length)
    (hbeyond : c.bytes.length < p + length.toNat) (n : Nat) :
    c.interfaceStep c.bytes.length (p, n + 1) = some (.inr none) := by
  rw [interfaceStep_succ, hlength, Option.bind_some, if_pos hbeyond]

theorem interfaceStep_other {type : Byte} (hlength : c.bytes[p]? = some length)
    (hfits : p + length.toNat ≤ c.bytes.length) (htype : c.bytes[p + 1]? = some type)
    (hne : type ≠ 4) (n : Nat) : c.interfaceStep c.bytes.length (p, n + 1) =
      some (.inl (p + length.toNat, n + 1)) := by
  rw [interfaceStep_succ, hlength, Option.bind_some, if_neg (Nat.not_lt.mpr hfits), htype,
    Option.bind_some, if_neg hne]

theorem interfaceStep_interface (hlength : c.bytes[p]? = some length)
    (hfits : p + length.toNat ≤ c.bytes.length) (htype : c.bytes[p + 1]? = some 4) (n : Nat) :
    c.interfaceStep c.bytes.length (p, n + 1) = (c.isSupported p).map fun b =>
      if b then .inr (some p) else .inl (p + length.toNat, n) := by
  rw [interfaceStep_succ, hlength, Option.bind_some, if_neg (Nat.not_lt.mpr hfits), htype,
    Option.bind_some, if_pos rfl]

/-- What one pass of the search can do. -/
theorem interfaceStep_cases (c : UsbConfig) (p n : Nat) :
    (c.bytes[p]? = none ∧ c.interfaceStep c.bytes.length (p, n + 1) = none) ∨
    ∃ length, c.bytes[p]? = some length ∧
      ((c.bytes.length < p + length.toNat ∧
        c.interfaceStep c.bytes.length (p, n + 1) = some (.inr none)) ∨
      p + length.toNat ≤ c.bytes.length ∧
        ((c.bytes[p + 1]? = none ∧ c.interfaceStep c.bytes.length (p, n + 1) = none) ∨
        (∃ type, c.bytes[p + 1]? = some type ∧ type ≠ 4 ∧
          c.interfaceStep c.bytes.length (p, n + 1) = some (.inl (p + length.toNat, n + 1))) ∨
        c.bytes[p + 1]? = some 4 ∧ c.interfaceStep c.bytes.length (p, n + 1) =
          (c.isSupported p).map fun b =>
            if b then .inr (some p) else .inl (p + length.toNat, n))) := by
  cases hlength : c.bytes[p]? with
  | none => exact .inl ⟨rfl, by rw [interfaceStep_succ, hlength, Option.bind_none]⟩
  | some length =>
      refine .inr ⟨length, rfl, ?_⟩
      rcases Nat.lt_or_ge c.bytes.length (p + length.toNat) with hbeyond | hfits
      · exact .inl ⟨hbeyond, interfaceStep_beyond hlength hbeyond n⟩
      · refine .inr ⟨hfits, ?_⟩
        cases htype : c.bytes[p + 1]? with
        | none =>
            refine .inl ⟨rfl, ?_⟩
            rw [interfaceStep_succ, hlength, Option.bind_some, if_neg (Nat.not_lt.mpr hfits),
              htype, Option.bind_none]
        | some type =>
            by_cases h4 : type = 4
            · subst h4
              exact .inr (.inr ⟨rfl, interfaceStep_interface hlength hfits htype n⟩)
            · exact .inr (.inl ⟨type, rfl, h4, interfaceStep_other hlength hfits htype h4 n⟩)

/-- The passes of the loop are for the descriptors that the search comes to. -/
theorem reaches_iff {num : Byte} (hnum : c.bytes[4]? = some num) (s : Nat × Nat) :
    GoesTo (c.interfaceStep c.bytes.length) (9, num.toNat) s ↔ c.ComesTo s.1 s.2 := by
  constructor
  · intro h
    induction h with
    | refl => exact .first hnum
    | @tail s s' _ hstep ih =>
        obtain ⟨p, n⟩ := s
        cases n with
        | zero => cases hstep
        | succ n =>
            rcases interfaceStep_cases c p n with ⟨-, h⟩ | ⟨length, hlength, ⟨-, h⟩ | ⟨hfits, h⟩⟩
            · cases h.symm.trans hstep
            · cases h.symm.trans hstep
            rcases h with ⟨-, h⟩ | ⟨type, htype, hne, h⟩ | ⟨htype, h⟩
            · cases h.symm.trans hstep
            · cases h.symm.trans hstep
              exact .other ih hlength hfits htype hne
            · rw [h, Option.map_eq_some_iff] at hstep
              obtain ⟨b, hb, hstep⟩ := hstep
              cases b with
              | true => cases hstep
              | false =>
                  cases hstep
                  exact .interface ih hlength hfits htype hb
  · obtain ⟨p, n⟩ := s
    intro (h : c.ComesTo p n)
    induction h with
    | first hnum' =>
        cases hnum.symm.trans hnum'
        exact .refl
    | other _ hlength hfits htype hne ih =>
        exact ih.tail (interfaceStep_other hlength hfits htype hne _)
    | interface _ hlength hfits htype hsupported ih =>
        refine ih.tail ?_
        rw [interfaceStep_interface hlength hfits htype, hsupported]
        rfl

/-- The search for an interface ends well just if all descriptors it comes to are sound. -/
theorem ends_interface_iff {num : Byte} (hnum : c.bytes[4]? = some num) :
    (∃ found, Finishes (c.interfaceStep c.bytes.length) (9, num.toNat) found ∧
      ∀ iface, found = some iface → c.Inside iface 9) ↔
    ∀ p n, c.ComesTo p (n + 1) → c.InterfaceSound p := by
  refine (exists_ends_iff (fun s => s.2 ≠ 0 → c.InterfaceSound s.1)
    (fun s => c.bytes.length + 1 - s.1 + s.2) ?_ ?_).trans ?_
  · -- a sound descriptor ends the search or takes it on
    rintro ⟨p, n⟩ h
    cases n with
    | zero => exact .inl ⟨none, interfaceStep_zero c _ p, fun _ h => by cases h⟩
    | succ n =>
        obtain ⟨length, hlength, hsound⟩ := h (Nat.succ_ne_zero n)
        rcases Nat.lt_or_ge c.bytes.length (p + length.toNat) with hbeyond | hfits
        · exact .inl ⟨none, interfaceStep_beyond hlength hbeyond n, fun _ h => by cases h⟩
        · obtain ⟨type, htype, hother, hinterface⟩ := hsound hfits
          by_cases h4 : type = 4
          · subst h4
            obtain ⟨b, hb, hinside⟩ := hinterface rfl
            have hstep := interfaceStep_interface hlength hfits htype n
            rw [hb] at hstep
            cases b with
            | true =>
                refine .inl ⟨some p, hstep, ?_⟩
                rintro _ ⟨⟩
                refine ⟨hinside rfl, fun length' hlength' => ?_⟩
                cases hlength.symm.trans hlength'
                exact hfits
            | false =>
                refine .inr ⟨_, hstep, ?_⟩
                show c.bytes.length + 1 - (p + length.toNat) + n < c.bytes.length + 1 - p + (n + 1)
                omega
          · have hpos : length.toNat ≠ 0 := fun h0 => hother h4 (UInt8.toNat_inj.mp h0)
            refine .inr ⟨_, interfaceStep_other hlength hfits htype h4 n, ?_⟩
            show c.bytes.length + 1 - (p + length.toNat) + (n + 1) <
              c.bytes.length + 1 - p + (n + 1)
            omega
  · -- one that is not sound is read outside of the block, stays, or is found
    rintro ⟨p, n⟩ h
    rw [Classical.not_imp] at h
    obtain ⟨hn, h⟩ := h
    obtain ⟨n, rfl⟩ := Nat.exists_eq_succ_of_ne_zero hn
    rcases interfaceStep_cases c p n with ⟨-, hstep⟩ | ⟨length, hlength, ⟨hbeyond, -⟩ | ⟨-, hcases⟩⟩
    · exact .inl hstep
    · exact absurd ⟨length, hlength, fun hfits => absurd hfits (Nat.not_le.mpr hbeyond)⟩ h
    rcases hcases with ⟨-, hstep⟩ | ⟨type, htype, hne, hstep⟩ | ⟨htype, hstep⟩
    · exact .inl hstep
    · refine .inr (.inl ?_)
      have hzero : length = 0 := by
        by_contra hpos
        exact h ⟨length, hlength, fun _ => ⟨type, htype, fun _ => hpos, fun h4 => absurd h4 hne⟩⟩
      rw [hzero] at hstep
      exact hstep
    · cases hb : c.isSupported p with
      | none =>
          rw [hb] at hstep
          exact .inl hstep
      | some b =>
          have hbad : ¬ (b = true → p + 9 ≤ c.bytes.length) := fun hinside =>
            h ⟨length, hlength, fun _ => ⟨4, htype, fun h4 => absurd rfl h4, fun _ =>
              ⟨b, hb, hinside⟩⟩⟩
          rw [Classical.not_imp] at hbad
          obtain ⟨rfl, hbad⟩ := hbad
          rw [hb] at hstep
          exact .inr (.inr ⟨some p, hstep, fun hgood => hbad (hgood p rfl).1⟩)
  · constructor
    · intro h p n hcomes
      exact h (p, n + 1) ((reaches_iff hnum _).mpr hcomes) (Nat.succ_ne_zero n)
    · rintro h ⟨p, n⟩ hreach hn
      obtain ⟨n, rfl⟩ := Nat.exists_eq_succ_of_ne_zero hn
      exact h p n ((reaches_iff hnum _).mp hreach)

/-! ## The search for an endpoint -/

variable {type dir : Int}

theorem endpointStep_ge (h : c.bytes.length ≤ p) :
    c.endpointStep type dir c.bytes.length p = some (.inr none) := if_pos h

theorem endpointStep_none (hp : p < c.bytes.length) (htype : c.bytes[p + 1]? = none) :
    c.endpointStep type dir c.bytes.length p = none := by
  rw [endpointStep, if_neg (Nat.not_le.mpr hp), htype]
  rfl

theorem endpointStep_interface (hp : p < c.bytes.length) (htype : c.bytes[p + 1]? = some 4) :
    c.endpointStep type dir c.bytes.length p = some (.inr none) := by
  rw [endpointStep, if_neg (Nat.not_le.mpr hp), htype]
  rfl

theorem endpointStep_other (type dir : Int) {t : Byte} (htype : c.bytes[p + 1]? = some t)
    (hne : t ≠ 4) (hlength : c.bytes[p]? = some length) : c.endpointStep type dir c.bytes.length p =
      (c.isEndpoint type dir p).map fun b =>
        if b then .inr (some p) else .inl (p + length.toNat) := by
  have hp : p < c.bytes.length := (List.getElem?_eq_some_iff.mp hlength).1
  rw [endpointStep, if_neg (Nat.not_le.mpr hp), htype, hlength, Option.bind_eq_bind,
    Option.bind_some, if_neg hne]
  cases c.isEndpoint type dir p with
  | none => rfl
  | some b =>
      cases b with
      | true => rfl
      | false => rfl

/-- The passes of the loop are for the descriptors that the search comes to. -/
theorem reachesEndpoint_iff {iface : Nat} :
    GoesTo (c.endpointStep type dir c.bytes.length) (iface + 9) p ↔
      c.ComesToEndpoint type dir iface p := by
  constructor
  · intro h
    induction h with
    | refl => exact .first
    | @tail p _ _ hstep ih =>
        rcases Nat.lt_or_ge p c.bytes.length with hlt | hge
        · cases htype : c.bytes[p + 1]? with
          | none => cases (endpointStep_none hlt htype).symm.trans hstep
          | some t =>
              by_cases h4 : t = 4
              · subst h4
                cases (endpointStep_interface hlt htype).symm.trans hstep
              · have hlength := List.getElem?_eq_getElem hlt
                rw [endpointStep_other _ _ htype h4 hlength, Option.map_eq_some_iff] at hstep
                obtain ⟨b, hb, hstep⟩ := hstep
                cases b with
                | true => cases hstep
                | false =>
                    cases hstep
                    exact .next ih htype h4 hb hlength
        · cases (endpointStep_ge hge).symm.trans hstep
  · intro h
    induction h with
    | first => exact .refl
    | next _ htype hne hother hlength ih =>
        refine ih.tail ?_
        rw [endpointStep_other _ _ htype hne hlength, hother]
        rfl

/-- The search for an endpoint ends well just if all descriptors it comes to are sound. -/
theorem ends_endpoint_iff {iface : Nat} :
    (∃ desc, Finishes (c.endpointStep type dir c.bytes.length) (iface + 9) desc ∧
      ∀ epdesc, desc = some epdesc → c.Inside epdesc 7) ↔
    ∀ p, c.ComesToEndpoint type dir iface p → c.EndpointSound type dir p := by
  refine (exists_ends_iff (c.EndpointSound type dir) (fun p => c.bytes.length - p) ?_ ?_).trans
    (forall_congr' fun p => imp_congr_left reachesEndpoint_iff)
  · intro p h
    rcases Nat.lt_or_ge p c.bytes.length with hlt | hge
    · obtain ⟨t, htype, hsound⟩ := h hlt
      by_cases h4 : t = 4
      · subst h4
        exact .inl ⟨none, endpointStep_interface hlt htype, fun _ h => by cases h⟩
      · obtain ⟨b, hb, hinside, hpos⟩ := hsound h4
        have hlength := List.getElem?_eq_getElem hlt
        have hstep := endpointStep_other type dir htype h4 hlength
        rw [hb] at hstep
        cases b with
        | true =>
            refine .inl ⟨some p, hstep, ?_⟩
            rintro _ ⟨⟩
            exact hinside rfl
        | false =>
            refine .inr ⟨_, hstep, ?_⟩
            have hne : (c.bytes[p]).toNat ≠ 0 := fun h0 => by
              have hzero : c.bytes[p] = 0 := UInt8.toNat_inj.mp h0
              exact hpos rfl (hzero ▸ hlength)
            show c.bytes.length - (p + (c.bytes[p]).toNat) < c.bytes.length - p
            omega
    · exact .inl ⟨none, endpointStep_ge hge, fun _ h => by cases h⟩
  · intro p h
    rw [EndpointSound, Classical.not_imp] at h
    obtain ⟨hlt, h⟩ := h
    cases htype : c.bytes[p + 1]? with
    | none => exact .inl (endpointStep_none hlt htype)
    | some t =>
        have hne : t ≠ 4 := fun h4 => h ⟨t, htype, fun hne => absurd h4 hne⟩
        have hlength := List.getElem?_eq_getElem hlt
        have hstep := endpointStep_other type dir htype hne hlength
        cases hb : c.isEndpoint type dir p with
        | none =>
            rw [hb] at hstep
            exact .inl hstep
        | some b =>
            rw [hb] at hstep
            cases b with
            | true =>
                refine .inr (.inr ⟨some p, hstep, fun hgood => ?_⟩)
                exact h ⟨t, htype, fun _ =>
                  ⟨true, hb, fun _ => hgood p rfl, fun h => Bool.noConfusion h⟩⟩
            | false =>
                refine .inr (.inl ?_)
                have hzero : c.bytes[p] = 0 := by
                  by_contra hpos
                  refine h ⟨t, htype, fun _ => ⟨false, hb, fun h => Bool.noConfusion h,
                    fun _ h0 => ?_⟩⟩
                  exact hpos (Option.some.inj (hlength.symm.trans h0))
                rw [hzero] at hstep
                exact hstep

/-! ## Both searches -/

/-- The loop that looks for an interface. -/
theorem findInterface_eq {num : Byte} (hnum : c.bytes[4]? = some num) (fuel : Nat) :
    c.findInterface fuel = loop (c.interfaceStep c.bytes.length) fuel (9, num.toNat) := by
  have hlt : 4 < c.bytes.length := (List.getElem?_eq_some_iff.mp hnum).1
  have hdrop : 2 ≤ (c.bytes.drop 2).length := by
    rw [List.length_drop]
    omega
  rw [findInterface, hnum, memcpy, if_pos hdrop]
  show loop (c.interfaceStep (ofLE ((c.bytes.drop 2).take 2))) fuel (9, num.toNat) = _
  rw [c.length_eq (Nat.le_of_lt hlt)]

/-- The loop that looks for an endpoint. -/
theorem usbFindDesc_eq {iface : Nat} (h : iface ≤ c.bytes.length) (fuel : Nat) :
    c.usbFindDesc type dir iface fuel =
      loop (c.endpointStep type dir c.bytes.length) fuel (iface + 9) := by
  rw [usbFindDesc, Nat.add_sub_cancel' h]

theorem ends_some_iff {num : Byte} (hnum : c.bytes[4]? = some num) (iface : Nat) :
    Finishes (c.interfaceStep c.bytes.length) (9, num.toNat) (some iface) ↔ c.IsFound iface := by
  rw [ends_iff_reaches]
  constructor
  · rintro ⟨⟨p, n⟩, hreach, hstep⟩
    rw [reaches_iff hnum] at hreach
    cases n with
    | zero => cases hstep
    | succ n =>
        rcases interfaceStep_cases c p n with ⟨-, h⟩ | ⟨length, hlength, ⟨-, h⟩ | ⟨hfits, h⟩⟩
        · cases h.symm.trans hstep
        · cases h.symm.trans hstep
        rcases h with ⟨-, h⟩ | ⟨type, -, -, h⟩ | ⟨htype, h⟩
        · cases h.symm.trans hstep
        · cases h.symm.trans hstep
        · rw [h, Option.map_eq_some_iff] at hstep
          obtain ⟨b, hb, hstep⟩ := hstep
          cases b with
          | false => cases hstep
          | true =>
              cases hstep
              exact ⟨n, length, hreach, hlength, hfits, htype, hb⟩
  · rintro ⟨n, length, hcomes, hlength, hfits, htype, hsupported⟩
    refine ⟨(iface, n + 1), (reaches_iff hnum _).mpr hcomes, ?_⟩
    rw [interfaceStep_interface hlength hfits htype, hsupported]
    rfl

/-- Both searches are safe just if the number of interfaces is in the block, all descriptors
before the interface are sound, and so are those behind it. -/
theorem searchesSafely_iff (c : UsbConfig) (type dir : Int) : c.SearchesSafely type dir ↔
    5 ≤ c.bytes.length ∧ (∀ p n, c.ComesTo p (n + 1) → c.InterfaceSound p) ∧
      ∀ iface, c.IsFound iface →
        ∀ p, c.ComesToEndpoint type dir iface p → c.EndpointSound type dir p := by
  cases hnum : c.bytes[4]? with
  | none =>
      refine iff_of_false ?_ fun h => ?_
      · rintro ⟨found, ⟨fuel, h⟩, -⟩
        rw [findInterface, hnum] at h
        cases h
      · exact absurd h.1 (Nat.not_le.mpr (Nat.lt_succ_of_le (List.getElem?_eq_none_iff.mp hnum)))
  | some num =>
      have hlen : 5 ≤ c.bytes.length := (List.getElem?_eq_some_iff.mp hnum).1
      simp only [SearchesSafely, findInterface_eq hnum, exists_loop_iff]
      constructor
      · rintro ⟨found, hends, hsafe⟩
        refine ⟨hlen, ?_, fun iface hfound => ?_⟩
        · exact (ends_interface_iff hnum).mp ⟨found, hends, fun iface h => (hsafe iface h).1⟩
        · rw [← ends_some_iff hnum] at hfound
          obtain ⟨hinside, desc, hdesc, hgood⟩ := hsafe iface (hends.unique hfound)
          have hle : iface ≤ c.bytes.length := Nat.le_trans (Nat.le_add_right _ _) hinside.1
          simp only [usbFindDesc_eq hle, exists_loop_iff] at hdesc
          exact ends_endpoint_iff.mp ⟨desc, hdesc, hgood⟩
      · rintro ⟨-, hinterfaces, hendpoints⟩
        obtain ⟨found, hends, hinside⟩ := (ends_interface_iff hnum).mpr hinterfaces
        refine ⟨found, hends, fun iface hfound => ⟨hinside iface hfound, ?_⟩⟩
        subst hfound
        obtain ⟨desc, hdesc, hgood⟩ :=
          ends_endpoint_iff.mpr (hendpoints iface ((ends_some_iff hnum iface).mp hends))
        have hle : iface ≤ c.bytes.length :=
          Nat.le_trans (Nat.le_add_right _ _) (hinside iface rfl).1
        refine ⟨desc, ?_, hgood⟩
        simp only [usbFindDesc_eq hle, exists_loop_iff]
        exact hdesc

/-- A block of 11 bytes with one interface announced, whose first descriptor has no length. -/
def zeroLength : UsbConfig where
  bytes := [9, 2, 11, 0, 1, 1, 0, 0x80, 50, 0, 0x21]
  length_eq _ := by decide

/-- The search for an interface stays at that descriptor. -/
theorem zeroLength_not_searchesSafely : ¬ zeroLength.SearchesSafely 3 0x80 := by
  rintro ⟨found, ⟨fuel, h⟩, -⟩
  rw [findInterface_eq rfl] at h
  refine not_ends_of_stays (P := (· = (9, 1))) ?_ rfl (exists_loop_iff.mp ⟨fuel, h⟩)
  rintro _ rfl
  exact .inr ⟨_, rfl, rfl⟩

end UsbConfig

end ClayFigure
