/-
# The processors of the machine

`detect_cores` walks over the records of the MADT, which say of themselves how long they are, and
notes the local APIC of each processor that is enabled and the address of each I/O APIC. Nothing
of the table is checked, and both counters have eight bits.
-/

import ClayFigure.Lib.String
import ClayFigure.Math.LittleEndian
import ClayFigure.Math.Loop

namespace ClayFigure

open ClayFigure.Math

/-! ## The code -/

/-- `ioapic_t`. -/
structure Ioapic where
  indexAddr : Nat
  dataAddr : Nat
  eoiAddr : Nat
  deriving DecidableEq, Repr

/-- `apic_t`; `lapic_id` has 256 entries and `ioapic` has 8. -/
structure Apic where
  localApicAddress : Nat
  numberOfCores : Nat
  lapicId : List Byte
  numberOfIoapic : Nat
  ioapic : List Ioapic
  deriving DecidableEq, Repr

namespace Apic

/-- `apic.lapic_id[apic.number_of_cores++] = id`. -/
def storeCore (a : Apic) (id : Byte) : Option Apic :=
  if a.numberOfCores < 256 then some { a with
    lapicId := a.lapicId.set a.numberOfCores id
    numberOfCores := (a.numberOfCores + 1) % 256 }
  else none

/-- The next entry of `apic.ioapic`. -/
def storeIoapic (a : Apic) (addr : Nat) : Option Apic :=
  if a.numberOfIoapic < 8 then some { a with
    ioapic := a.ioapic.set a.numberOfIoapic ⟨addr, addr + 0x10, addr + 0x40⟩
    numberOfIoapic := (a.numberOfIoapic + 1) % 256 }
  else none

end Apic

/-- The MADT, the bytes that `Header.Length` says it has. If these are too few to hold that field,
it stands outside of the table. -/
structure Madt where
  bytes : List Byte
  length_eq : 8 ≤ bytes.length → ofLE ((bytes.drop 4).take 4) = bytes.length

namespace Madt

/-- A field of `width` bytes; `none` is an access outside of the table. -/
def field (t : Madt) (place width : Nat) : Option Nat :=
  (memcpy (t.bytes.drop place) width).map ofLE

/-- The `switch` on the type of the entry at `p`. -/
def visit (t : Madt) (a : Apic) (p : Nat) : Option Apic := do
  let type ← t.bytes[p]?
  if type = 0 then
    if (← t.bytes[p + 4]?) &&& 1 ≠ 0 then a.storeCore (← t.bytes[p + 3]?)
    else return a
  else if type = 1 then a.storeIoapic (← t.field (p + 4) 4)
  else return a

/-- One pass of the loop, up to `p2`. -/
def entryStep (t : Madt) (p2 : Nat) (s : Nat × Apic) : Option ((Nat × Apic) ⊕ Apic) :=
  let (p, a) := s
  if p < p2 then do
    let a ← t.visit a p
    let length ← t.bytes[p + 1]?
    return .inl (p + length.toNat, a)
  else return .inr a

/-- `detect_cores`, with at most `fuel` tests of its loop. -/
def detectCores (t : Madt) (fuel : Nat) : Option Apic := do
  let localApicAddress ← t.field 36 4
  let length ← t.field 4 4
  loop (t.entryStep length) fuel (44,
    ⟨localApicAddress, 0, List.replicate 256 0, 0, List.replicate 8 ⟨0, 0, 0⟩⟩)

/-! ## Records -/

/-- The places of the records from `p` to the end of the table, each of which is as long as it
says. -/
inductive Records (t : Madt) : Nat → List Nat → Prop
  | done {p : Nat} (hp : t.bytes.length ≤ p) : Records t p []
  | next {p : Nat} {length : Byte} {ps : List Nat} (hp : p < t.bytes.length)
      (hlength : t.bytes[p + 1]? = some length) (hpos : length ≠ 0)
      (hrest : Records t (p + length.toNat) ps) : Records t p (p :: ps)

/-- The record of a local APIC that is enabled. -/
def isEnabledCore (t : Madt) (p : Nat) : Bool :=
  t.bytes[p]? = some 0 && t.bytes[p + 4]?.any (· &&& 1 ≠ 0)

/-- The record of an I/O APIC. -/
def isIoapic (t : Madt) (p : Nat) : Bool := t.bytes[p]? = some 1

/-- The records of enabled local APICs. -/
def cores (t : Madt) (ps : List Nat) : List Nat := ps.filter t.isEnabledCore

/-- Their ids. -/
def coreIds (t : Madt) (ps : List Nat) : List Byte := (t.cores ps).filterMap fun p => t.bytes[p + 3]?

/-- What the code reads of a record besides its length is in the table. -/
def FieldsInside (t : Madt) (p : Nat) : Prop :=
  (t.bytes[p]? = some 0 → p + 4 < t.bytes.length) ∧
    (t.bytes[p]? = some 1 → p + 7 < t.bytes.length)

/-- `detect_cores` ends without an access outside of the table or of the two arrays, and with the
enabled processors in the order of the table. -/
def DetectsCores (t : Madt) : Prop :=
  ∃ ps, t.Records 44 ps ∧ ∃ fuel a, t.detectCores fuel = some a ∧
    a.numberOfCores = (t.cores ps).length ∧ a.lapicId.take a.numberOfCores = t.coreIds ps

/-! ## The loop -/

variable {t : Madt}

theorem field_of_le {place width : Nat} (h : place + width ≤ t.bytes.length) :
    ∃ n, t.field place width = some n := by
  have hlen : width ≤ (t.bytes.drop place).length := by
    rw [List.length_drop]
    omega
  exact ⟨_, by rw [field, memcpy, if_pos hlen, Option.map_some]⟩

theorem field_none {place width : Nat} (h : t.bytes.length < place + width) (hpos : 0 < width) :
    t.field place width = none := by
  have hlen : ¬ width ≤ (t.bytes.drop place).length := by
    rw [List.length_drop]
    omega
  rw [field, memcpy, if_neg hlen, Option.map_none]

/-- The length in the header is that of the table. -/
theorem field_length (h : 8 ≤ t.bytes.length) : t.field 4 4 = some t.bytes.length := by
  have hlen : 4 ≤ (t.bytes.drop 4).length := by
    rw [List.length_drop]
    exact Nat.le_sub_of_add_le h
  rw [field, memcpy, if_pos hlen, Option.map_some, t.length_eq h]

theorem entryStep_lt {p : Nat} (hp : p < t.bytes.length) (a : Apic) :
    t.entryStep t.bytes.length (p, a) = do
      let a ← t.visit a p
      let length ← t.bytes[p + 1]?
      return .inl (p + length.toNat, a) := if_pos hp

theorem entryStep_ge {p : Nat} (hp : t.bytes.length ≤ p) (a : Apic) :
    t.entryStep t.bytes.length (p, a) = some (.inr a) := if_neg (Nat.not_lt.mpr hp)

/-- The loop ends just if the records come to an end and each of them can be visited. -/
theorem ends_iff {p : Nat} {a b : Apic} : Finishes (t.entryStep t.bytes.length) (p, a) b ↔
    ∃ ps, t.Records p ps ∧ ps.foldlM t.visit a = some b := by
  constructor
  · intro h
    generalize hs : (p, a) = s at h
    induction h generalizing p a with
    | done hstep =>
        subst hs
        rcases Nat.lt_or_ge p t.bytes.length with hlt | hge
        · rw [entryStep_lt hlt] at hstep
          simp only [Option.bind_eq_bind, Option.bind_eq_some_iff, Option.pure_def,
            Option.some_inj, reduceCtorEq, and_false, exists_false] at hstep
        · rw [entryStep_ge hge] at hstep
          cases hstep
          exact ⟨[], .done hge, rfl⟩
    | next hstep hends ih =>
        subst hs
        rcases Nat.lt_or_ge p t.bytes.length with hlt | hge
        · rw [entryStep_lt hlt] at hstep
          simp only [Option.bind_eq_bind, Option.bind_eq_some_iff, Option.pure_def,
            Option.some_inj, Sum.inl.injEq] at hstep
          obtain ⟨a', hvisit, length, hlength, rfl⟩ := hstep
          obtain ⟨ps, hps, hfold⟩ := ih rfl
          refine ⟨p :: ps, .next hlt hlength ?_ hps, ?_⟩
          · -- a record of no bytes would be followed by itself
            rintro rfl
            rw [UInt8.toNat_zero, Nat.add_zero] at hps
            cases hps with
            | done hge => exact Nat.not_lt.mpr hge hlt
            | next _ hlength' hpos _ =>
                exact hpos (Option.some.inj (hlength'.symm.trans hlength))
          · rw [List.foldlM_cons, hvisit]
            exact hfold
        · rw [entryStep_ge hge] at hstep
          cases hstep
  · rintro ⟨ps, hps, hfold⟩
    induction hps generalizing a with
    | done hge =>
        cases hfold
        exact .done (entryStep_ge hge _)
    | next hlt hlength _ _ ih =>
        rw [List.foldlM_cons, Option.bind_eq_bind, Option.bind_eq_some_iff] at hfold
        obtain ⟨a', hvisit, hfold⟩ := hfold
        refine .next ?_ (ih hfold)
        rw [entryStep_lt hlt, hvisit, hlength]
        rfl

/-! ## One record -/

theorem isEnabledCore_eq {p : Nat} {flags : Byte} (htype : t.bytes[p]? = some 0)
    (hflags : t.bytes[p + 4]? = some flags) : t.isEnabledCore p = (flags &&& 1 ≠ 0 : Bool) := by
  rw [isEnabledCore, htype, hflags]
  rfl

/-- The record of a local APIC whose flags are in the table. -/
theorem visit_local {p : Nat} {flags : Byte} (htype : t.bytes[p]? = some 0)
    (hflags : t.bytes[p + 4]? = some flags) (a : Apic) : ∃ id, t.bytes[p + 3]? = some id ∧
      t.visit a p = if t.isEnabledCore p then a.storeCore id else some a := by
  have hlt : p + 4 < t.bytes.length := (List.getElem?_eq_some_iff.mp hflags).1
  have hid := List.getElem?_eq_getElem (show p + 3 < t.bytes.length by omega)
  refine ⟨_, hid, ?_⟩
  simp only [visit, htype, hflags, hid, Option.bind_eq_bind, Option.bind_some, if_true,
    isEnabledCore_eq htype hflags, decide_eq_true_eq, Option.pure_def]

theorem visit_ioapic {p : Nat} (htype : t.bytes[p]? = some 1) (a : Apic) :
    t.visit a p = (t.field (p + 4) 4).bind a.storeIoapic := by
  simp only [visit, htype, Option.bind_eq_bind, Option.bind_some,
    if_neg (show ¬ (1 : Byte) = 0 by decide), if_true]

theorem visit_other {p : Nat} {type : Byte} (htype : t.bytes[p]? = some type) (h0 : type ≠ 0)
    (h1 : type ≠ 1) (a : Apic) : t.visit a p = some a := by
  simp only [visit, htype, Option.bind_eq_bind, Option.bind_some, if_neg h0, if_neg h1,
    Option.pure_def]

theorem isEnabledCore_of_ne {p : Nat} (h : t.bytes[p]? ≠ some 0) : t.isEnabledCore p = false := by
  rw [isEnabledCore, decide_eq_false h, Bool.false_and]

end Madt

/-- The arrays are within their bounds. -/
structure Apic.Sound (a : Apic) : Prop where
  cores : a.numberOfCores < 256
  ioapics : a.numberOfIoapic ≤ 8
  ids : a.lapicId.length = 256

namespace Madt

variable {t : Madt} {a b c : Apic} {ps qs : List Nat}

/-! ## All records -/

/-- What the records of a list leave in the arrays. -/
structure Noted (t : Madt) (a : Apic) (ps : List Nat) (b : Apic) : Prop where
  fields : ∀ p ∈ ps, t.FieldsInside p
  sound : b.Sound
  numberOfIoapic : b.numberOfIoapic = a.numberOfIoapic + (ps.filter t.isIoapic).length
  numberOfCores : b.numberOfCores = (a.numberOfCores + (t.cores ps).length) % 256
  lapicId : a.numberOfCores + (t.cores ps).length < 256 →
    b.lapicId.take b.numberOfCores = a.lapicId.take a.numberOfCores ++ t.coreIds ps

theorem cores_append (t : Madt) (ps qs : List Nat) : t.cores (ps ++ qs) = t.cores ps ++ t.cores qs :=
  List.filter_append ..

theorem coreIds_append (t : Madt) (ps qs : List Nat) :
    t.coreIds (ps ++ qs) = t.coreIds ps ++ t.coreIds qs := by
  rw [coreIds, cores_append, List.filterMap_append]
  rfl

theorem Noted.nil (t : Madt) (ha : a.Sound) : t.Noted a [] a where
  fields := List.forall_mem_nil _
  sound := ha
  numberOfIoapic := rfl
  numberOfCores := (Nat.mod_eq_of_lt ha.cores).symm
  lapicId _ := (List.append_nil _).symm

theorem Noted.append (h : t.Noted a ps b) (h' : t.Noted b qs c) : t.Noted a (ps ++ qs) c where
  fields := List.forall_mem_append.mpr ⟨h.fields, h'.fields⟩
  sound := h'.sound
  numberOfIoapic := by
    rw [h'.numberOfIoapic, h.numberOfIoapic, List.filter_append, List.length_append, Nat.add_assoc]
  numberOfCores := by
    rw [h'.numberOfCores, h.numberOfCores, cores_append, List.length_append, Nat.mod_add_mod,
      Nat.add_assoc]
  lapicId hlt := by
    rw [cores_append, List.length_append] at hlt
    have hfirst := h.numberOfCores
    rw [Nat.mod_eq_of_lt (by omega)] at hfirst
    rw [h'.lapicId (by omega), h.lapicId (by omega), coreIds_append, List.append_assoc]

/-- A record that leaves everything as it is. -/
theorem Noted.same {p : Nat} (ha : a.Sound) (hfields : t.FieldsInside p)
    (hcore : t.isEnabledCore p = false) (hioapic : t.isIoapic p = false) : t.Noted a [p] a := by
  have hcores : t.cores [p] = [] := List.filter_cons_of_neg (Bool.eq_false_iff.mp hcore)
  have hioapics : [p].filter t.isIoapic = [] :=
    List.filter_cons_of_neg (Bool.eq_false_iff.mp hioapic)
  refine ⟨List.forall_mem_singleton.mpr hfields, ha, ?_, ?_, fun _ => ?_⟩
  · rw [hioapics]
    rfl
  · rw [hcores]
    exact (Nat.mod_eq_of_lt ha.cores).symm
  · rw [coreIds, hcores]
    exact (List.append_nil _).symm

/-- The record of an enabled processor. -/
theorem Noted.core {p : Nat} {id : Byte} (ha : a.Sound) (hfields : t.FieldsInside p)
    (hcore : t.isEnabledCore p = true) (hioapic : t.isIoapic p = false)
    (hid : t.bytes[p + 3]? = some id) (hstore : a.storeCore id = some b) : t.Noted a [p] b := by
  have hcores : t.cores [p] = [p] := List.filter_cons_of_pos hcore
  have hioapics : [p].filter t.isIoapic = [] :=
    List.filter_cons_of_neg (Bool.eq_false_iff.mp hioapic)
  rw [Apic.storeCore, if_pos ha.cores] at hstore
  obtain rfl := Option.some.inj hstore
  refine ⟨List.forall_mem_singleton.mpr hfields, ⟨Nat.mod_lt _ (by decide), ha.ioapics, ?_⟩, ?_, ?_,
    fun hlt => ?_⟩
  · rw [List.length_set]
    exact ha.ids
  · rw [hioapics]
    rfl
  · rw [hcores]
    rfl
  · rw [hcores, List.length_singleton] at hlt
    have hids : t.coreIds [p] = [id] := by
      rw [coreIds, hcores, List.filterMap_cons, hid]
      rfl
    rw [hids]
    show (a.lapicId.set a.numberOfCores id).take ((a.numberOfCores + 1) % 256) = _
    rw [Nat.mod_eq_of_lt hlt, List.take_add_one, List.take_set_of_le (Nat.le_refl _),
      List.getElem?_set_self (by rw [ha.ids]; exact ha.cores)]
    rfl

/-- The record of an I/O APIC. -/
theorem Noted.ioapic {p addr : Nat} (ha : a.Sound) (hfields : t.FieldsInside p)
    (hcore : t.isEnabledCore p = false) (hioapic : t.isIoapic p = true)
    (hstore : a.storeIoapic addr = some b) : t.Noted a [p] b := by
  have hcores : t.cores [p] = [] := List.filter_cons_of_neg (Bool.eq_false_iff.mp hcore)
  have hioapics : [p].filter t.isIoapic = [p] := List.filter_cons_of_pos hioapic
  have hroom : a.numberOfIoapic < 8 := by
    refine Nat.lt_of_not_le fun hle => ?_
    rw [Apic.storeIoapic, if_neg (Nat.not_lt.mpr hle)] at hstore
    cases hstore
  rw [Apic.storeIoapic, if_pos hroom] at hstore
  obtain rfl := Option.some.inj hstore
  have hnext : (a.numberOfIoapic + 1) % 256 = a.numberOfIoapic + 1 :=
    Nat.mod_eq_of_lt (by omega)
  refine ⟨List.forall_mem_singleton.mpr hfields, ⟨ha.cores, ?_, ha.ids⟩, ?_, ?_, fun _ => ?_⟩
  · show (a.numberOfIoapic + 1) % 256 ≤ 8
    rw [hnext]
    exact hroom
  · rw [hioapics]
    exact hnext
  · rw [hcores]
    exact (Nat.mod_eq_of_lt ha.cores).symm
  · rw [coreIds, hcores]
    exact (List.append_nil _).symm

/-- One record. -/
theorem noted_of_visit {p : Nat} (ha : a.Sound) (h : t.visit a p = some b) : t.Noted a [p] b := by
  cases htype : t.bytes[p]? with
  | none =>
      rw [visit, htype] at h
      cases h
  | some type =>
      by_cases h0 : type = 0
      · subst h0
        have hioapic : t.isIoapic p = false := decide_eq_false (by rw [htype]; decide)
        cases hflags : t.bytes[p + 4]? with
        | none =>
            simp only [visit, htype, hflags, Option.bind_eq_bind, Option.bind_some, if_true,
              Option.bind_none, reduceCtorEq] at h
        | some flags =>
            have hfields : t.FieldsInside p :=
              ⟨fun _ => (List.getElem?_eq_some_iff.mp hflags).1, fun h1 => by cases htype.symm.trans h1⟩
            obtain ⟨id, hid, hvisit⟩ := visit_local htype hflags a
            rw [hvisit] at h
            cases hcore : t.isEnabledCore p with
            | true =>
                rw [hcore, if_pos rfl] at h
                exact .core ha hfields hcore hioapic hid h
            | false =>
                rw [hcore, if_neg Bool.false_ne_true] at h
                cases h
                exact .same ha hfields hcore hioapic
      · have hcore : t.isEnabledCore p = false :=
          isEnabledCore_of_ne fun h => h0 (Option.some.inj (htype.symm.trans h))
        by_cases h1 : type = 1
        · subst h1
          rw [visit_ioapic htype, Option.bind_eq_some_iff] at h
          obtain ⟨addr, hfield, hstore⟩ := h
          have hfields : t.FieldsInside p := by
            refine ⟨fun h => absurd (Option.some.inj (htype.symm.trans h)) (by decide), fun _ => ?_⟩
            refine Nat.lt_of_not_le fun hle => ?_
            rw [field_none (by omega) (by decide)] at hfield
            cases hfield
          exact .ioapic ha hfields hcore (decide_eq_true htype) hstore
        · rw [visit_other htype h0 h1] at h
          cases h
          refine .same ha ⟨fun h => ?_, fun h => ?_⟩ hcore (decide_eq_false fun h => ?_)
          · exact absurd (Option.some.inj (htype.symm.trans h)) h0
          · exact absurd (Option.some.inj (htype.symm.trans h)) h1
          · exact absurd (Option.some.inj (htype.symm.trans h)) h1

/-- A record that is in the table is visited if its fields are, and an I/O APIC has room. -/
theorem exists_visit {p : Nat} (ha : a.Sound) (hp : p < t.bytes.length) (h : t.FieldsInside p)
    (hroom : a.numberOfIoapic + ([p].filter t.isIoapic).length ≤ 8) :
    ∃ b, t.visit a p = some b := by
  have htype := List.getElem?_eq_getElem hp
  by_cases h0 : t.bytes[p] = 0
  · rw [h0] at htype
    have hflags := List.getElem?_eq_getElem (h.1 htype)
    obtain ⟨id, -, hvisit⟩ := visit_local htype hflags a
    rw [hvisit, Apic.storeCore, if_pos ha.cores]
    split
    · exact ⟨_, rfl⟩
    · exact ⟨_, rfl⟩
  · by_cases h1 : t.bytes[p] = 1
    · rw [h1] at htype
      have hlt := h.2 htype
      obtain ⟨addr, haddr⟩ := @field_of_le t (p + 4) 4 (by omega)
      have hioapic : t.isIoapic p = true := decide_eq_true htype
      rw [List.filter_cons_of_pos hioapic] at hroom
      have hio : a.numberOfIoapic < 8 := hroom
      rw [visit_ioapic htype, haddr, Option.bind_some, Apic.storeIoapic, if_pos hio]
      exact ⟨_, rfl⟩
    · exact ⟨a, visit_other htype h0 h1 a⟩

theorem noted_of_foldlM (ha : a.Sound) (h : ps.foldlM t.visit a = some b) : t.Noted a ps b := by
  induction ps generalizing a with
  | nil =>
      cases h
      exact .nil t ha
  | cons p ps ih =>
      rw [List.foldlM_cons, Option.bind_eq_bind, Option.bind_eq_some_iff] at h
      obtain ⟨a', hvisit, h⟩ := h
      have hfirst := noted_of_visit ha hvisit
      exact hfirst.append (ih hfirst.sound h)

theorem exists_foldlM (ha : a.Sound) (hps : ∀ p ∈ ps, p < t.bytes.length)
    (hfields : ∀ p ∈ ps, t.FieldsInside p)
    (hroom : a.numberOfIoapic + (ps.filter t.isIoapic).length ≤ 8) :
    ∃ b, ps.foldlM t.visit a = some b := by
  induction ps generalizing a with
  | nil => exact ⟨a, rfl⟩
  | cons p ps ih =>
      rw [List.forall_mem_cons] at hps hfields
      have hsplit : (p :: ps).filter t.isIoapic = [p].filter t.isIoapic ++ ps.filter t.isIoapic :=
        List.filter_append [p] ps
      rw [hsplit, List.length_append, ← Nat.add_assoc] at hroom
      obtain ⟨a', hvisit⟩ := exists_visit ha hps.1 hfields.1
        (Nat.le_trans (Nat.le_add_right _ _) hroom)
      have hfirst := noted_of_visit ha hvisit
      rw [← hfirst.numberOfIoapic] at hroom
      obtain ⟨b, hb⟩ := ih hfirst.sound hps.2 hfields.2 hroom
      refine ⟨b, ?_⟩
      rw [List.foldlM_cons, hvisit]
      exact hb

/-- There is one way to go over the records. -/
theorem Records.unique {p : Nat} (h : t.Records p ps) (h' : t.Records p qs) : ps = qs := by
  induction h generalizing qs with
  | done hge =>
      cases h' with
      | done _ => rfl
      | next hlt _ _ _ => exact absurd hlt (Nat.not_lt.mpr hge)
  | next hlt hlength _ _ ih =>
      cases h' with
      | done hge => exact absurd hlt (Nat.not_lt.mpr hge)
      | next _ hlength' _ hrest' =>
          cases hlength.symm.trans hlength'
          rw [ih hrest']

theorem Records.lt {p : Nat} (h : t.Records p ps) : ∀ q ∈ ps, q < t.bytes.length := by
  induction h with
  | done _ => exact List.forall_mem_nil _
  | next hp _ _ _ ih => exact List.forall_mem_cons.mpr ⟨hp, ih⟩

/-! ## `detect_cores` -/

/-- Before the first record. -/
theorem sound_initial (addr : Nat) :
    Apic.Sound ⟨addr, 0, List.replicate 256 0, 0, List.replicate 8 ⟨0, 0, 0⟩⟩ where
  cores := (by decide : 0 < 256)
  ioapics := Nat.zero_le 8
  ids := List.length_replicate

/-- When `detect_cores` ends, and with what. -/
theorem exists_detectCores_iff : (∃ fuel, t.detectCores fuel = some b) ↔
    40 ≤ t.bytes.length ∧ ∃ addr ps, t.field 36 4 = some addr ∧ t.Records 44 ps ∧
      ps.foldlM t.visit ⟨addr, 0, List.replicate 256 0, 0, List.replicate 8 ⟨0, 0, 0⟩⟩ = some b := by
  rcases Nat.lt_or_ge t.bytes.length 40 with hlt | hge
  · refine iff_of_false ?_ fun h => absurd h.1 (Nat.not_le.mpr hlt)
    rintro ⟨fuel, h⟩
    rw [detectCores, field_none hlt (by decide)] at h
    cases h
  · obtain ⟨addr, haddr⟩ := @field_of_le t 36 4 hge
    have hrun (fuel : Nat) : t.detectCores fuel = loop (t.entryStep t.bytes.length) fuel (44,
        ⟨addr, 0, List.replicate 256 0, 0, List.replicate 8 ⟨0, 0, 0⟩⟩) := by
      rw [detectCores, haddr, field_length (by omega)]
      rfl
    simp only [hrun, exists_loop_iff, ends_iff]
    constructor
    · rintro ⟨ps, hps, hfold⟩
      exact ⟨hge, addr, ps, haddr, hps, hfold⟩
    · rintro ⟨-, addr', ps, haddr', hps, hfold⟩
      cases haddr.symm.trans haddr'
      exact ⟨ps, hps, hfold⟩

/-- `detect_cores` is right just for a table that is long enough for the fields before its records,
whose records have each a length, hold the bytes that are read of them and come to an end, and
have at most 8 I/O APICs and at most 255 enabled processors. -/
theorem detectsCores_iff (t : Madt) : t.DetectsCores ↔ 40 ≤ t.bytes.length ∧
    ∃ ps, t.Records 44 ps ∧ (∀ p ∈ ps, t.FieldsInside p) ∧ (ps.filter t.isIoapic).length ≤ 8 ∧
      (t.cores ps).length ≤ 255 := by
  constructor
  · rintro ⟨ps, hps, fuel, a, hrun, hcores, -⟩
    obtain ⟨hlen, addr, ps', -, hps', hfold⟩ := exists_detectCores_iff.mp ⟨fuel, hrun⟩
    obtain rfl := hps.unique hps'
    have hnoted := noted_of_foldlM (sound_initial addr) hfold
    have hioapics := hnoted.numberOfIoapic
    rw [Nat.zero_add] at hioapics
    refine ⟨hlen, ps, hps, hnoted.fields, hioapics ▸ hnoted.sound.ioapics, ?_⟩
    rw [← hcores]
    exact Nat.le_of_lt_succ hnoted.sound.cores
  · rintro ⟨hlen, ps, hps, hfields, hioapics, hcount⟩
    obtain ⟨addr, haddr⟩ := @field_of_le t 36 4 hlen
    obtain ⟨a, hfold⟩ := exists_foldlM (sound_initial addr) hps.lt hfields
      (Nat.le_trans (Nat.le_of_eq (Nat.zero_add _)) hioapics)
    obtain ⟨fuel, hrun⟩ := exists_detectCores_iff.mpr ⟨hlen, addr, ps, haddr, hps, hfold⟩
    have hnoted := noted_of_foldlM (sound_initial addr) hfold
    have hcores := hnoted.numberOfCores
    have hids := hnoted.lapicId
    rw [Nat.zero_add] at hcores hids
    rw [Nat.mod_eq_of_lt (Nat.lt_succ_of_le hcount)] at hcores
    exact ⟨ps, hps, fuel, a, hrun, hcores, hids (Nat.lt_succ_of_le hcount)⟩

/-- A table of 46 bytes, with one record of no length. -/
def zeroLength : Madt where
  bytes := [0x41, 0x50, 0x49, 0x43, 46, 0, 0, 0] ++ List.replicate 36 0 ++ [5, 0]
  length_eq _ := by decide

/-- On that table the loop does not end. -/
theorem zeroLength_not_detectsCores : ¬ zeroLength.DetectsCores := by
  rintro ⟨ps, hps, -⟩
  cases hps with
  | done hge => exact absurd hge (by decide)
  | next _ hlength hpos _ => exact hpos (Option.some.inj (hlength.symm.trans rfl))

end Madt

end ClayFigure
