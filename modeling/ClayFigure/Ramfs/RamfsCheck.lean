/-
# What an image is

An image counts its records in the header and ends with a trailer. `imgcopy` is to write such an
image and `ramfs_check` to accept no other; the count of the first includes the files that it
leaves out, and the second compares the last record, where the trailer is not. On its way
`ramfs_check` prints the name of each file, which need not end within its 64 bytes.
-/

import ClayFigure.Lib.StdioFormat
import ClayFigure.Ramfs.Ramfs

namespace ClayFigure

open ClayFigure.Math

/-! ## `ramfs_check` -/

theorem zero_notMem_takeWhile (s : List Byte) : 0 ∉ s.takeWhile (· ≠ 0) := by
  intro h
  have hne := List.all_eq_true.mp List.all_takeWhile 0 h
  exact of_decide_eq_true hne rfl

/-- The string at the start of these bytes; `none` if it does not end in them. -/
def readCString (s : List Byte) : Option CString :=
  if 0 ∈ s then some ⟨s.takeWhile (· ≠ 0), zero_notMem_takeWhile s⟩ else none

/-- `pr_msg` formats its message into 256 bytes, and so does `serial_pr_log` before it; `none` is a
store behind them. -/
def prMsg (env : FormatEnv) (msg : List Byte) (ap : VaList) : Option (List Byte) := do
  let (stored, _) ← vsprintf env (cstr msg) ap
  if stored.length < 256 then return stored else none

/-- `__func__`. -/
def checkFunc : CString where
  bytes := "ramfs_check".toList.map Char.toUInt8
  plain := by decide

/-- The format of the message, with that of `PR_MSG` in front. -/
def checkFormat : List Byte := "%s: File %d: name=%s, size=%d.\n".toList.map Char.toUInt8

/-- The message about a file; 0 is the address of `__func__` and 1 that of the name. -/
def checkMessage (number : Nat) (name : CString) (size : Nat) : Option (List Byte) :=
  prMsg { plainEnv with strings := fun s => if s = 0 then checkFunc else name } checkFormat
    { words := fun k => if k = 0 then 0 else if k = 1 then .ofNat number else
        if k = 2 then 1 else .ofNat size
      doubles := fun _ => 0 }

/-- The loop of `ramfs_check` from `i` on for `files` files: `data`, `offset` and `fdata` behind
it. -/
def checkLoop (image : List Byte) : Nat → Nat → Nat → Nat → Nat → Option (Nat × Nat × Nat)
  | 0, _, data, offset, fdata => some (data, offset, fdata)
  | files + 1, i, data, offset, fdata => do
      let name ← readCString (image.drop (fdata + 8))
      let size ← readWord image fdata
      let _ ← checkMessage (i + 1) name size
      let data := data + offset
      let offset := add64 72 size
      checkLoop image files (i + 1) data offset (data + offset)

/-- `ramfs_check` on an image in memory; `none` is an access outside of it, or a message that does
not fit. -/
def ramfsCheck (image : List Byte) : Option Status := do
  if (← readWord image 0) ≠ ramfsMagic then return .kError
  else
    let (data, _, _) ← checkLoop image (← readWord image 8) 0 16 0 16
    if (← strncmp (image.drop data) (cstr trailer) 10) = 0 then return .kError
    else return .kSuccess

/-! ## Images -/

/-- A record of an image; its length is a `size_t`. -/
@[ext]
structure RamfsRecord where
  name : List Byte
  contents : List Byte
  name_length : name.length = 64
  length_lt : 72 + contents.length < wordSize

namespace RamfsRecord

/-- The bytes of a record. -/
def bytes (r : RamfsRecord) : List Byte := toLE 8 r.contents.length ++ r.name ++ r.contents

/-- The bytes of records one behind the other. -/
def all : List RamfsRecord → List Byte
  | [] => []
  | r :: records => r.bytes ++ all records

/-- The header of an image of these records, and the records. -/
def headed (records : List RamfsRecord) : List Byte :=
  toLE 8 ramfsMagic ++ toLE 8 records.length ++ all records

theorem length_bytes (r : RamfsRecord) : r.bytes.length = 72 + r.contents.length := by
  rw [bytes, List.length_append, List.length_append, length_toLE, r.name_length]

theorem all_append (records records' : List RamfsRecord) :
    all (records ++ records') = all records ++ all records' := by
  induction records with
  | nil => rfl
  | cons r records ih => rw [List.cons_append, all, all, ih, List.append_assoc]

end RamfsRecord

open RamfsRecord

/-- The records that the header counts are followed by the trailer. -/
def WellFormed (image : List Byte) : Prop :=
  ∃ records rest, records.length < wordSize ∧ image = headed records ++ trailer ++ rest

/-- The image consists of a header, as many records as it counts, and the trailer; each name ends
within its 64 bytes. -/
def SelfConsistent (image : List Byte) : Prop :=
  ∃ records, records.length < wordSize ∧ image = headed records ++ trailer ∧
    ∀ r ∈ records, 0 ∈ r.name

namespace RamfsRecord

/-- The header of an image counts its records. -/
theorem readWord_count {records : List RamfsRecord} (hlen : records.length < wordSize)
    (post : List Byte) : readWord (headed records ++ post) 8 = some records.length := by
  have hword := readWord_append hlen (toLE 8 ramfsMagic) (all records ++ post)
  rw [length_toLE] at hword
  simpa only [headed, List.append_assoc] using hword

end RamfsRecord

/-! ## Where the check looks -/

/-- The record `k` records behind the one at `place`, where `next` is how far a size leads on;
`none` if a size on the way is outside of the image. -/
def walkRecords (next : Nat → Nat) (image : List Byte) : Nat → Nat → Option Nat
  | 0, place => some place
  | k + 1, place => do walkRecords next image k (place + next (← readWord image place))

/-- The walk of `ramfs_check`. -/
abbrev recordPlace (image : List Byte) (k place : Nat) : Option Nat :=
  walkRecords (add64 72) image k place

theorem walkRecords_next {next : Nat → Nat} {image : List Byte} {place size : Nat}
    (hsize : readWord image place = some size) (k : Nat) :
    walkRecords next image (k + 1) place = walkRecords next image k (place + next size) := by
  rw [walkRecords, hsize, Option.bind_eq_bind, Option.bind_some]

/-- The line about the record at `place` fits: 34 of the 256 bytes are the same in each line, and
one is the zero. -/
def LineFits (image : List Byte) (place number : Nat) : Prop :=
  ∃ size name, readWord image place = some size ∧ readCString (image.drop (place + 8)) = some name ∧
    34 + name.bytes.length + decimalLength number + decimalLength size < 256

theorem readWord_lt {image : List Byte} {place n : Nat} (h : readWord image place = some n) :
    n < 2 ^ 64 := by
  unfold readWord memcpy at h
  obtain ⟨bytes, hbytes, rfl⟩ := Option.map_eq_some_iff.mp h
  split at hbytes
  · cases hbytes
    have hlt := ofLE_lt ((image.drop place).take 8)
    have hlen := List.length_take_le 8 (image.drop place)
    exact Nat.lt_of_lt_of_le hlt (Nat.pow_le_pow_right (by decide) hlen)
  · cases hbytes

/-- The bytes of a line. -/
def checkLine (number : Nat) (name : CString) (size : Nat) : List Byte :=
  checkFunc.bytes ++ (": File ".toList.map Char.toUInt8 ++ (decimal number ++
    (": name=".toList.map Char.toUInt8 ++ (name.bytes ++ (", size=".toList.map Char.toUInt8 ++
      (decimal size ++ ".\n".toList.map Char.toUInt8))))))

theorem length_checkLine (number : Nat) (name : CString) (size : Nat) :
    (checkLine number name size).length =
      34 + name.bytes.length + decimalLength number + decimalLength size := by
  have hfunc : checkFunc.bytes.length = 11 := rfl
  have hfile : (": File ".toList.map Char.toUInt8).length = 7 := rfl
  have hname : (": name=".toList.map Char.toUInt8).length = 7 := rfl
  have hsize : (", size=".toList.map Char.toUInt8).length = 7 := rfl
  have hend : (".\n".toList.map Char.toUInt8).length = 2 := rfl
  simp only [checkLine, List.length_append, length_decimal, hfunc, hfile, hname, hsize, hend]
  omega

theorem checkFormat_eq : cstr checkFormat =
    '%'.toUInt8 :: 's'.toUInt8 :: (": File ".toList.map Char.toUInt8 ++
      '%'.toUInt8 :: 'd'.toUInt8 :: (": name=".toList.map Char.toUInt8 ++
        '%'.toUInt8 :: 's'.toUInt8 :: (", size=".toList.map Char.toUInt8 ++
          '%'.toUInt8 :: 'd'.toUInt8 :: (".\n".toList.map Char.toUInt8 ++ [0])))) := by
  decide

/-- A text that is formatted fits or does not. -/
theorem prMsg_eq {env : FormatEnv} {msg out : List Byte} {ap : VaList}
    (hloop : formatLoop env ((cstr msg).length + 1) ap (cstr msg) = some out) :
    prMsg env msg ap = if out.length < 256 then some out else none := by
  obtain ⟨n, hn⟩ := strlen_isSome out
  simp only [prMsg, vsprintf, hloop, hn, Option.bind_eq_bind, Option.bind_some, Option.pure_def]

theorem formatLoop_check (env : FormatEnv) (ap : VaList) :
    formatLoop env 33 ap (cstr checkFormat) =
      some ((env.strings ap.next.1).bytes ++ (": File ".toList.map Char.toUInt8 ++
        (decimal ap.next.2.next.1 ++ (": name=".toList.map Char.toUInt8 ++
          ((env.strings ap.next.2.next.2.next.1).bytes ++ (", size=".toList.map Char.toUInt8 ++
            (decimal ap.next.2.next.2.next.2.next.1 ++ ".\n".toList.map Char.toUInt8))))))) := by
  have hend (fuel : Nat) (ap : VaList) : formatLoop env (fuel + 1) ap [0] = some [] := by
    rw [formatLoop, if_pos rfl]
  rw [checkFormat_eq, formatLoop_string 32, formatLoop_text env 25 _ _ (by decide) (by decide),
    formatLoop_decimal 24, formatLoop_text env 17 _ _ (by decide) (by decide),
    formatLoop_string 16, formatLoop_text env 9 _ _ (by decide) (by decide),
    formatLoop_decimal 8, formatLoop_text env 6 _ _ (by decide) (by decide), hend]
  simp only [Option.map_some, List.append_nil]

theorem checkMessage_eq {number size : Nat} (hnumber : number < 2 ^ 64) (hsize : size < 2 ^ 64)
    (name : CString) : checkMessage number name size =
      if (checkLine number name size).length < 256 then some (checkLine number name size)
      else none := by
  have hfuel : (cstr checkFormat).length + 1 = 33 := by decide
  have hnumber' : (UInt64.ofNat number).toNat = number := by
    rw [UInt64.toNat_ofNat', Nat.mod_eq_of_lt hnumber]
  have hsize' : (UInt64.ofNat size).toNat = size := by
    rw [UInt64.toNat_ofNat', Nat.mod_eq_of_lt hsize]
  rw [checkMessage]
  apply prMsg_eq
  rw [hfuel, formatLoop_check, checkLine]
  simp only [VaList.next, hnumber', hsize', if_true, if_false, Nat.reduceEqDiff]
  rfl

/-- What `data` is behind the loop over `k` files, from `data` and `fdata` on. -/
def lastRecord (image : List Byte) (data fdata : Nat) : Nat → Option Nat
  | 0 => some data
  | k + 1 => recordPlace image k fdata

/-- `data` stays one record behind. -/
theorem lastRecord_next {image : List Byte} {place size : Nat}
    (hsize : readWord image place = some size) (k : Nat) :
    lastRecord image place (place + add64 72 size) k = recordPlace image k place := by
  cases k with
  | zero => rfl
  | succ k => exact (walkRecords_next hsize k).symm

/-- The loop ends if every line fits. -/
theorem checkLoop_eq_some {image : List Byte} {k i data offset place : Nat}
    (hi : i + k < 2 ^ 64) :
    (checkLoop image k i data offset (data + offset)).map Prod.fst = some place ↔
      (∀ j < k, ∃ p, recordPlace image j (data + offset) = some p ∧ LineFits image p (i + j + 1)) ∧
        lastRecord image data (data + offset) k = some place := by
  induction k generalizing i data offset with
  | zero => simp [checkLoop, lastRecord]
  | succ k ih =>
      have hstart {P : Nat → Prop} : (∃ p, recordPlace image 0 (data + offset) = some p ∧ P p) ↔
          P (data + offset) := by
        simp [walkRecords]
      rw [Nat.forall_lt_succ_left, hstart]
      by_cases hfits : LineFits image (data + offset) (i + 1)
      · obtain ⟨size, name, hsize, hname, hlen⟩ := id hfits
        have hmessage := checkMessage_eq (show i + 1 < 2 ^ 64 by omega) (readWord_lt hsize) name
        rw [length_checkLine, if_pos hlen] at hmessage
        have hshift : (∀ j < k, ∃ p, recordPlace image (j + 1) (data + offset) = some p ∧
              LineFits image p (i + (j + 1) + 1)) ↔
            ∀ j < k, ∃ p, recordPlace image j (data + offset + add64 72 size) = some p ∧
              LineFits image p (i + 1 + j + 1) := by
          refine forall_congr' fun j => ?_
          rw [recordPlace, walkRecords_next hsize, show i + (j + 1) + 1 = i + 1 + j + 1 by omega]
        rw [and_assoc, and_iff_right hfits, hshift]
        rw [checkLoop, hname, Option.bind_eq_bind, Option.bind_some, hsize, Option.bind_eq_bind,
          Option.bind_some, hmessage, Option.bind_eq_bind, Option.bind_some]
        rw [ih (by omega), lastRecord_next hsize, lastRecord]
      · have hnone : checkLoop image (k + 1) i data offset (data + offset) = none := by
          rw [checkLoop]
          cases hname : readCString (image.drop (data + offset + 8)) with
          | none => rw [Option.bind_eq_bind, Option.bind_none]
          | some name =>
              rw [Option.bind_eq_bind, Option.bind_some]
              cases hsize : readWord image (data + offset) with
              | none => rw [Option.bind_eq_bind, Option.bind_none]
              | some size =>
                  have hlong : ¬ 34 + name.bytes.length + decimalLength (i + 1) +
                      decimalLength size < 256 :=
                    fun hlen => hfits ⟨size, name, hsize, hname, hlen⟩
                  have hmessage :=
                    checkMessage_eq (show i + 1 < 2 ^ 64 by omega) (readWord_lt hsize) name
                  rw [length_checkLine, if_neg hlong] at hmessage
                  rw [Option.bind_eq_bind, Option.bind_some, hmessage, Option.bind_eq_bind,
                    Option.bind_none]
        rw [hnone]
        exact iff_of_false (Option.some_ne_none place).symm fun h => hfits h.1.1

/-! ## What the comparison tells -/

/-- The bytes pass for `t` in `strncmp` up to the length of `t`: it compares one byte more than
it is told when all of them agree, and does not compare the last one against a zero. -/
def PassesFor (t s : List Byte) : Prop := t ++ [0] <+: s ∨ t ≠ [] ∧ t.dropLast ++ [0] <+: s

theorem not_passesFor_nil (t : List Byte) : ¬ PassesFor t [] := by
  have hne (u : List Byte) : u ++ [0] ≠ [] :=
    List.append_ne_nil_of_right_ne_nil u (List.cons_ne_nil 0 [])
  rintro (h | ⟨-, h⟩)
  · exact hne t (List.prefix_nil.mp h)
  · exact hne t.dropLast (List.prefix_nil.mp h)

theorem passesFor_nil_cons (a : Byte) (s : List Byte) : PassesFor [] (a :: s) ↔ a = 0 := by
  simp only [PassesFor, List.nil_append, ne_eq, not_true_eq_false, false_and, or_false,
    List.cons_prefix_cons, List.nil_prefix, and_true]
  exact eq_comm

theorem passesFor_zero {c : Byte} (hc : c ≠ 0) (t s : List Byte) :
    PassesFor (c :: t) (0 :: s) ↔ t = [] := by
  cases t with
  | nil => simp [PassesFor, hc]
  | cons d t => simp [PassesFor, hc]

theorem passesFor_cons {a : Byte} (ha : a ≠ 0) (c : Byte) (t s : List Byte) :
    PassesFor (c :: t) (a :: s) ↔ a = c ∧ PassesFor t s := by
  cases t with
  | nil => simp [PassesFor, ha.symm, eq_comm]
  | cons d t => simp [PassesFor, and_or_left, eq_comm]

theorem strncmpEnd_cons (a b : Byte) (s t : List Byte) {n : Nat} (hn : 0 < n) :
    strncmpEnd (a :: s) (b :: t) n = some (charVal a - charVal b) := if_pos hn

/-- `strncmp` against all of a string: it leaves the bytes just if they run out before a
difference, and finds no difference just if they pass for the string. -/
theorem strncmp_whole {t : List Byte} (ht : 0 ∉ t) (s : List Byte) :
    (strncmp s (cstr t) t.length = none ↔ s <+: t) ∧
      (strncmp s (cstr t) t.length = some 0 ↔ PassesFor t s) := by
  induction t generalizing s with
  | nil =>
      have hpos : 0 < sub64 0 1 := by decide
      cases s with
      | nil =>
          refine ⟨iff_of_true ?_ List.prefix_rfl, iff_of_false ?_ (not_passesFor_nil [])⟩
          · rfl
          · nofun
      | cons a s =>
          have hcmp : strncmp (a :: s) (cstr []) 0 = some (charVal a - charVal 0) :=
            strncmpEnd_cons a 0 s [] hpos
          rw [List.length_nil, hcmp, Option.some_inj, charVal_sub_eq_zero, passesFor_nil_cons]
          exact ⟨iff_of_false nofun nofun, Iff.rfl⟩
  | cons c t ih =>
      have hc : c ≠ 0 := fun h => ht (h ▸ List.mem_cons_self)
      cases s with
      | nil =>
          refine ⟨iff_of_true rfl List.nil_prefix, iff_of_false nofun (not_passesFor_nil _)⟩
      | cons a s =>
          have hcmp : strncmp (a :: s) (cstr (c :: t)) (c :: t).length =
              if a = 0 then strncmpEnd (a :: s) (c :: cstr t) t.length
              else if c = 0 then strncmpEnd (a :: s) (c :: cstr t) t.length
              else if a ≠ c then some (charVal a - charVal c)
              else strncmp s (cstr t) t.length := rfl
          rw [hcmp]
          by_cases ha : a = 0
          · subst ha
            rw [if_pos rfl, passesFor_zero hc]
            have hnot : ¬ (0 : Byte) :: s <+: c :: t := fun h =>
              hc (List.cons_prefix_cons.mp h).1.symm
            by_cases hlen : 0 < t.length
            · rw [strncmpEnd_cons 0 c s (cstr t) hlen, Option.some_inj, charVal_sub_eq_zero]
              exact ⟨iff_of_false nofun hnot,
                iff_of_false hc.symm (List.length_pos_iff.mp hlen)⟩
            · rw [strncmpEnd, if_neg hlen]
              exact ⟨iff_of_false nofun hnot,
                iff_of_true rfl (List.length_eq_zero_iff.mp (Nat.eq_zero_of_not_pos hlen))⟩
          · rw [if_neg ha, if_neg hc, passesFor_cons ha]
            by_cases hac : a = c
            · subst hac
              rw [if_neg (not_not.mpr rfl)]
              have hrest := ih (fun h => ht (List.mem_cons_of_mem _ h)) s
              refine ⟨hrest.1.trans ?_, hrest.2.trans ?_⟩
              · rw [List.cons_prefix_cons, eq_self_iff_true, true_and]
              · rw [eq_self_iff_true, true_and]
            · rw [if_pos hac, Option.some_inj, charVal_sub_eq_zero]
              exact ⟨iff_of_false nofun fun h => hac (List.cons_prefix_cons.mp h).1,
                iff_of_false hac fun h => hac h.1⟩

theorem WellFormed.magic {image : List Byte} (h : WellFormed image) :
    readWord image 0 = some ramfsMagic := by
  obtain ⟨records, rest, -, rfl⟩ := h
  rw [headed]
  simp only [List.append_assoc]
  exact readWord_start (by decide) _

/-- The end of `ramfs_check`. -/
theorem ramfsCheck_of_magic {image : List Byte} {files : Nat}
    (hmagic : readWord image 0 = some ramfsMagic) (hfiles : readWord image 8 = some files) :
    ramfsCheck image =
      ((checkLoop image files 0 16 0 16).map Prod.fst).bind fun data =>
        (strncmp (image.drop data) (cstr trailer) 10).map fun d =>
          if d = 0 then .kError else .kSuccess := by
  rw [ramfsCheck, hmagic, hfiles]
  simp only [Option.bind_eq_bind, Option.bind_some, ne_eq, not_true_eq_false, if_false]
  cases checkLoop image files 0 16 0 16 with
  | none => rw [Option.map_none, Option.bind_none, Option.bind_none]
  | some r =>
      rw [Option.map_some, Option.bind_some, Option.bind_some]
      cases strncmp (image.drop r.1) (cstr trailer) 10 with
      | none => rw [Option.bind_none, Option.map_none]
      | some d =>
          rw [Option.bind_some, Option.map_some]
          by_cases hd : d = 0
          · rw [if_pos hd, if_pos hd, Option.pure_def]
          · rw [if_neg hd, if_neg hd, Option.pure_def]

/-! ## Images that are accepted -/

theorem length_takeWhile_lt {s : List Byte} (hs : 0 ∈ s) (t : List Byte) :
    ((s ++ t).takeWhile (· ≠ 0)).length < s.length := by
  induction s with
  | nil => cases hs
  | cons c s ih =>
      rw [List.cons_append, List.takeWhile_cons]
      by_cases hc : c = 0
      · rw [if_neg (by simp [hc])]
        exact Nat.succ_pos _
      · rw [if_pos (decide_eq_true hc)]
        exact Nat.succ_lt_succ (ih ((List.mem_cons.mp hs).resolve_left (Ne.symm hc)))

theorem readCString_of_mem {s : List Byte} (hs : 0 ∈ s) (t : List Byte) :
    ∃ name, readCString (s ++ t) = some name ∧ name.bytes.length < s.length :=
  ⟨_, if_pos (List.mem_append_left t hs), length_takeWhile_lt hs t⟩

theorem length_numeral_le {n : Nat} (hn : n < 10 ^ 10) (small : Bool) :
    (numeral small 10 n).length ≤ 10 := by
  unfold numeral
  split
  · decide
  · rw [List.length_reverse, List.length_map]
    exact (Nat.digits_length_le_iff (by decide) n).mpr hn

theorem decimalLength_le (word : Nat) : decimalLength word ≤ 11 := by
  obtain ⟨hlo, hhi⟩ := intOf_range word
  have hdigits := length_numeral_le (n := (intOf word).natAbs) (by omega) false
  rw [decimalLength]
  split <;> omega

namespace RamfsRecord

/-- The places of the records. -/
theorem walkRecords_all {next : Nat → Nat} (hnext : ∀ n, 72 + n < wordSize → next n = 72 + n)
    (records : List RamfsRecord) (pre post : List Byte) :
    walkRecords next (pre ++ all records ++ post) records.length pre.length =
      some (pre ++ all records).length := by
  induction records generalizing pre with
  | nil => rw [all, List.append_nil, List.length_nil, walkRecords]
  | cons r records ih =>
      have hlt := r.length_lt
      have hword := readWord_append (n := r.contents.length) (by omega) pre
        (r.name ++ r.contents ++ (all records ++ post))
      have himage : pre ++ all (r :: records) ++ post =
          pre ++ (toLE 8 r.contents.length ++ (r.name ++ r.contents ++ (all records ++ post))) := by
        rw [all, bytes]
        simp only [List.append_assoc]
      have hbehind : pre ++ all (r :: records) = pre ++ r.bytes ++ all records := by
        rw [all, List.append_assoc]
      have hplace : pre.length + next r.contents.length = (pre ++ r.bytes).length := by
        rw [hnext _ hlt, List.length_append, length_bytes]
      rw [← himage] at hword
      rw [List.length_cons, walkRecords_next hword, hplace, hbehind]
      exact ih (pre ++ r.bytes)

/-- What is at the place of a record. -/
theorem recordPlace_headed (records : List RamfsRecord) (r : RamfsRecord)
    (records' : List RamfsRecord) (post : List Byte) :
    ∃ place,
      recordPlace (headed (records ++ r :: records') ++ post) records.length 16 = some place ∧
      (headed (records ++ r :: records') ++ post).drop place =
        r.bytes ++ (all records' ++ post) := by
  set head := toLE 8 ramfsMagic ++ toLE 8 (records ++ r :: records').length with hhead
  have himage : headed (records ++ r :: records') ++ post =
      head ++ all records ++ (r.bytes ++ (all records' ++ post)) := by
    rw [headed, all_append, all]
    simp only [List.append_assoc, hhead]
  have hsixteen : head.length = 16 := by
    rw [hhead, List.length_append, length_toLE, length_toLE]
  have hplace := walkRecords_all (fun _ => add64_of_lt) records head
    (r.bytes ++ (all records' ++ post))
  rw [hsixteen, ← himage] at hplace
  refine ⟨_, hplace, ?_⟩
  rw [himage, List.drop_left]

/-- The line about a record whose name ends in its 64 bytes fits. -/
theorem lineFits_of_drop {image post : List Byte} {r : RamfsRecord} {place : Nat}
    (hdrop : image.drop place = r.bytes ++ post) (hname : 0 ∈ r.name) (number : Nat) :
    LineFits image place number := by
  have hlt := r.length_lt
  have hsize : readWord image place = some r.contents.length := by
    have hcopy := memcpy_append (toLE 8 r.contents.length) (r.name ++ r.contents ++ post)
    rw [length_toLE] at hcopy
    rw [readWord, hdrop, bytes, List.append_assoc, List.append_assoc, ← List.append_assoc r.name,
      hcopy, Option.map_some, ofLE_toLE (by unfold wordSize at hlt; omega)]
  have hbehind : image.drop (place + 8) = r.name ++ (r.contents ++ post) := by
    rw [← List.drop_drop, hdrop, bytes, List.append_assoc, List.append_assoc]
    exact List.drop_left' (length_toLE 8 _)
  obtain ⟨name, hread, hlen⟩ := readCString_of_mem hname (r.contents ++ post)
  rw [r.name_length] at hlen
  have hnumber := decimalLength_le number
  have hsize' := decimalLength_le r.contents.length
  exact ⟨_, name, hsize, hbehind ▸ hread, by omega⟩

/-- A record whose size leaves the highest byte zero does not pass for the trailer. -/
theorem bytes_ne_trailer {r : RamfsRecord} (hsize : r.contents.length < 2 ^ 56)
    (post : List Byte) : ¬ PassesFor trailer (r.bytes ++ post) := by
  have hseven : (r.bytes ++ post)[7]? = some 0 := by
    have hzero : r.contents.length / 256 / 256 / 256 / 256 / 256 / 256 / 256 = 0 := by omega
    simp only [bytes, toLE, List.cons_append, List.getElem?_cons_succ, List.getElem?_cons_zero,
      hzero]
    rfl
  rintro (h | ⟨-, h⟩)
  all_goals
    rw [List.prefix_iff_getElem?] at h
    have hother := h 7 (by decide)
    rw [hseven] at hother
    exact absurd hother (by decide)

end RamfsRecord

namespace RamfsImage

variable {image : RamfsImage}

end RamfsImage

/-- The comparison answers unless the image ends in it. -/
theorem compare_iff (s : List Byte) (p : Prop) :
    (∃ status, (strncmp s (cstr trailer) 10).map
        (fun d => if d = 0 then Status.kError else .kSuccess) = some status ∧
          (status = .kSuccess ↔ p)) ↔
      ¬ s <+: trailer ∧ (PassesFor trailer s ↔ ¬ p) := by
  obtain ⟨hnone, hzero⟩ := strncmp_whole (t := trailer) (by decide) s
  rw [show trailer.length = 10 from rfl] at hnone hzero
  rw [← hnone, ← hzero]
  cases strncmp s (cstr trailer) 10 with
  | none => simp
  | some d =>
      by_cases hd : d = 0
      · simp [hd]
      · simp [hd]

/-- Images of at least one record are accepted if every name ends in its 64 bytes, so that its line
fits, and the last record is of an ordinary size, so that nothing passes for a trailer there. -/
theorem ramfsCheck_headed {records : List RamfsRecord} {r : RamfsRecord}
    (hlen : (records ++ [r]).length < wordSize) (hname : ∀ x ∈ records ++ [r], 0 ∈ x.name)
    (hsize : r.contents.length < 2 ^ 56) (rest : List Byte) :
    ramfsCheck (headed (records ++ [r]) ++ trailer ++ rest) = some .kSuccess := by
  have hwell : WellFormed (headed (records ++ [r]) ++ trailer ++ rest) :=
    ⟨records ++ [r], rest, hlen, rfl⟩
  have hmagic := hwell.magic
  rw [List.append_assoc] at hmagic ⊢
  have hlines : ∀ j < (records ++ [r]).length, ∃ place,
      recordPlace (headed (records ++ [r]) ++ (trailer ++ rest)) j 16 = some place ∧
        LineFits (headed (records ++ [r]) ++ (trailer ++ rest)) place (j + 1) := by
    intro j hj
    have hsplit : records ++ [r] = (records ++ [r]).take j ++ (records ++ [r])[j] ::
        (records ++ [r]).drop (j + 1) := by
      rw [← List.drop_eq_getElem_cons hj, List.take_append_drop]
    obtain ⟨place, hplace, hdrop⟩ := recordPlace_headed ((records ++ [r]).take j)
      (records ++ [r])[j] ((records ++ [r]).drop (j + 1)) (trailer ++ rest)
    rw [← hsplit, List.length_take_of_le (Nat.le_of_lt hj)] at hplace
    rw [← hsplit] at hdrop
    exact ⟨place, hplace, lineFits_of_drop hdrop (hname _ (List.getElem_mem hj)) (j + 1)⟩
  obtain ⟨place, hplace, hdrop⟩ := recordPlace_headed records r [] (trailer ++ rest)
  have hloop := @checkLoop_eq_some (headed (records ++ [r]) ++ (trailer ++ rest))
    (records ++ [r]).length 0 16 0 place (by rw [Nat.zero_add]; exact hlen)
  simp only [Nat.zero_add, Nat.add_zero] at hloop
  have hlast : lastRecord (headed (records ++ [r]) ++ (trailer ++ rest)) 16 16
      (records ++ [r]).length = some place := by
    rw [List.length_append, List.length_singleton]
    exact hplace
  have hpass := bytes_ne_trailer hsize (all [] ++ (trailer ++ rest))
  have hnot : ¬ r.bytes ++ (all [] ++ (trailer ++ rest)) <+: trailer := by
    intro h
    have hle := h.length_le
    rw [List.length_append, length_bytes, show trailer.length = 10 from rfl] at hle
    omega
  obtain ⟨status, hstatus, hiff⟩ := (compare_iff _ True).mpr
    ⟨hnot, iff_of_false hpass (not_not.mpr trivial)⟩
  rw [ramfsCheck_of_magic hmagic (readWord_count hlen _), hloop.mpr ⟨hlines, hlast⟩,
    Option.bind_some, hdrop, hstatus, hiff.mpr trivial]
/-! ## What `imgcopy` writes -/

namespace RamfsRecord

/-- Records can be told apart by their bytes: each says how long it is. -/
theorem all_injective : Function.Injective all := by
  intro records
  induction records with
  | nil =>
      intro records' h
      cases records' with
      | nil => rfl
      | cons r records' =>
          have hlen := congrArg List.length h
          rw [all, all, List.length_append, length_bytes, List.length_nil] at hlen
          omega
  | cons r records ih =>
      intro records' h
      cases records' with
      | nil =>
          have hlen := congrArg List.length h
          rw [all, all, List.length_append, length_bytes, List.length_nil] at hlen
          omega
      | cons r' records' =>
          simp only [all, bytes, List.append_assoc] at h
          obtain ⟨hsize, hrest⟩ := List.append_inj h (by rw [length_toLE, length_toLE])
          have hlen : r.contents.length = r'.contents.length :=
            toLE_inj (Nat.lt_of_le_of_lt (Nat.le_add_left _ _) r.length_lt)
              (Nat.lt_of_le_of_lt (Nat.le_add_left _ _) r'.length_lt) hsize
          obtain ⟨hname, hrest⟩ := List.append_inj hrest (r.name_length.trans r'.name_length.symm)
          obtain ⟨hcontents, hrest⟩ := List.append_inj hrest hlen
          rw [RamfsRecord.ext hname hcontents, ih hrest]

/-- An image with `n` in its header is consistent just if it has `n` records with a zero in each
name. -/
theorem selfConsistent_iff {n : Nat} (hn : n < wordSize) (records : List RamfsRecord) :
    SelfConsistent (toLE 8 ramfsMagic ++ toLE 8 n ++ all records ++ trailer) ↔
      records.length = n ∧ ∀ r ∈ records, 0 ∈ r.name := by
  refine ⟨?_, ?_⟩
  · rintro ⟨records', hlen, himage, hzero⟩
    rw [headed] at himage
    simp only [List.append_assoc] at himage
    have hrest := List.append_cancel_left himage
    obtain ⟨hcount, hrest⟩ := List.append_inj hrest (by rw [length_toLE, length_toLE])
    obtain rfl := all_injective (List.append_cancel_right hrest)
    exact ⟨(toLE_inj hn hlen hcount).symm, hzero⟩
  · rintro ⟨rfl, hzero⟩
    exact ⟨records, hn, rfl, hzero⟩

end RamfsRecord

theorem length_strncpyName {name : List Byte} (hname : name.length ≤ maxNameLen) (last : Byte) :
    (strncpyName name last).length = 64 := by
  rw [strncpyName, List.length_append, List.length_append, List.length_take, List.length_replicate,
    List.length_singleton, Nat.min_eq_right hname, Nat.add_sub_cancel' hname]

/-- A name ends within the 64 bytes if `strncpy` has room for a zero, or finds one behind. -/
theorem zero_mem_strncpyName {name : List Byte} (hname : name.length ≤ maxNameLen)
    (hplain : 0 ∉ name) (last : Byte) :
    0 ∈ strncpyName name last ↔ name.length ≤ 62 ∨ last = 0 := by
  rw [strncpyName, List.take_of_length_le hname, List.mem_append, List.mem_append,
    List.mem_replicate, List.mem_singleton]
  constructor
  · rintro ((h | ⟨h, -⟩) | h)
    · exact absurd h hplain
    · exact .inl (Nat.le_pred_of_lt (Nat.lt_of_sub_ne_zero h))
    · exact .inr h.symm
  · rintro (h | h)
    · exact .inl (.inr ⟨Nat.sub_ne_zero_of_lt (Nat.lt_succ_of_le h), rfl⟩)
    · exact .inr h.symm

/-- The names that are written end within their 64 bytes; the first file is number `i`. -/
def NamesEnd (fopen : List Byte → Option (List Byte)) (stack : Nat → Byte) (i : Nat)
    (fileList : List (List Byte × List Byte)) : Prop :=
  ∀ j f, fileList[j]? = some f → (fopen f.1).isSome → f.2.length ≤ 62 ∨ stack (i + j) = 0

theorem namesEnd_cons (fopen : List Byte → Option (List Byte)) (stack : Nat → Byte) (i : Nat)
    (path name : List Byte) (fileList : List (List Byte × List Byte)) :
    NamesEnd fopen stack i ((path, name) :: fileList) ↔
      ((fopen path).isSome → name.length ≤ 62 ∨ stack i = 0) ∧
        NamesEnd fopen stack (i + 1) fileList := by
  constructor
  · intro h
    refine ⟨h 0 _ rfl, fun j f hf => ?_⟩
    rw [Nat.add_right_comm, Nat.add_assoc]
    exact h (j + 1) f hf
  · rintro ⟨hfirst, hrest⟩ j f hf
    cases j with
    | zero =>
        cases hf
        exact hfirst
    | succ j =>
        rw [← Nat.add_assoc, Nat.add_right_comm]
        exact hrest j f hf

/-- The records written are those of the files that can be opened. -/
theorem writeFiles_eq_all {fopen : List Byte → Option (List Byte)} (stack : Nat → Byte)
    (hsize : ∀ path contents, fopen path = some contents → contents.length < 2 ^ 63)
    {fileList : List (List Byte × List Byte)}
    (hname : ∀ f ∈ fileList, f.2.length ≤ maxNameLen ∧ 0 ∉ f.2) (i : Nat) :
    ∃ records, writeFiles fopen stack i fileList = all records ∧
      records.length ≤ fileList.length ∧
      (records.length = fileList.length ↔ ∀ f ∈ fileList, (fopen f.1).isSome) ∧
      ((∀ r ∈ records, 0 ∈ r.name) ↔ NamesEnd fopen stack i fileList) := by
  induction fileList generalizing i with
  | nil => exact ⟨[], rfl, le_rfl, by simp, by simp [NamesEnd]⟩
  | cons f fileList ih =>
      obtain ⟨path, name⟩ := f
      obtain ⟨records, hwrite, hle, hcount, hzero⟩ :=
        ih (fun g hg => hname g (List.mem_cons_of_mem _ hg)) (i + 1)
      obtain ⟨hlen, hplain⟩ := hname _ List.mem_cons_self
      rw [namesEnd_cons]
      cases hopen : fopen path with
      | none =>
          refine ⟨records, ?_, Nat.le_succ_of_le hle, iff_of_false ?_ ?_, ?_⟩
          · rw [writeFiles, hopen]
            exact hwrite
          · exact Nat.ne_of_lt (Nat.lt_succ_of_le hle)
          · intro h
            have hfirst := h _ List.mem_cons_self
            rw [hopen] at hfirst
            cases hfirst
          · rw [hzero]
            exact (and_iff_right fun h => Bool.noConfusion h).symm
      | some contents =>
          have hlt := hsize path contents hopen
          let r : RamfsRecord := ⟨strncpyName name (stack i), contents,
            length_strncpyName hlen _, by unfold wordSize; omega⟩
          have hr : r.bytes = fileRecord name contents (stack i) := rfl
          refine ⟨r :: records, ?_, Nat.succ_le_succ hle, ?_, ?_⟩
          · rw [writeFiles, hopen, all, hr, ← hwrite]
          · rw [List.length_cons, List.length_cons, Nat.succ_inj, hcount, List.forall_mem_cons,
              hopen]
            exact (and_iff_right rfl).symm
          · have hend : 0 ∈ r.name ↔ name.length ≤ 62 ∨ stack i = 0 :=
              zero_mem_strncpyName hlen hplain (stack i)
            rw [List.forall_mem_cons, hzero, hend]
            exact and_congr_left fun _ => ⟨fun h _ => h, fun h => h rfl⟩

/-- The list of the files that `main` makes of its arguments. -/
theorem readArgs_ok {args : List (List Byte)} {fileList : List (List Byte × List Byte)}
    (hread : readArgs args = .ok fileList) (hplain : ∀ a ∈ args, 0 ∉ a) :
    args.length / 3 = fileList.length ∧ ∀ f ∈ fileList, f.2.length ≤ maxNameLen ∧ 0 ∉ f.2 := by
  induction args using readArgs.induct generalizing fileList with
  | case1 flag file name args hflag =>
      rw [readArgs, if_pos hflag] at hread
      cases hread
  | case2 flag file name args hflag hlong =>
      rw [readArgs, if_neg hflag, if_pos hlong] at hread
      cases hread
  | case3 flag file name args hflag hlong ih =>
      rw [readArgs, if_neg hflag, if_neg hlong] at hread
      cases hrest : readArgs args with
      | error value =>
          rw [hrest] at hread
          cases hread
      | ok rest =>
          rw [hrest] at hread
          cases hread
          obtain ⟨hcount, hnames⟩ := ih hrest fun a ha =>
            hplain a (List.mem_cons_of_mem _ (List.mem_cons_of_mem _ (List.mem_cons_of_mem _ ha)))
          refine ⟨?_, List.forall_mem_cons.mpr ⟨⟨Nat.le_of_not_lt hlong, ?_⟩, hnames⟩⟩
          · rw [List.length_cons, List.length_cons, List.length_cons, List.length_cons, ← hcount]
            exact Nat.add_div_right args.length (Nat.succ_pos 2)
          · exact hplain name
              (List.mem_cons_of_mem _ (List.mem_cons_of_mem _ List.mem_cons_self))
  | case4 args hshort =>
      have hless : args.length < 3 := by
        rcases args with _ | ⟨flag, _ | ⟨file, _ | ⟨name, args⟩⟩⟩
        · exact Nat.succ_pos 2
        · exact Nat.one_lt_succ_succ 1
        · exact Nat.lt_succ_self 2
        · exact (hshort flag file name args rfl).elim
      have hnil : fileList = [] := by
        unfold readArgs at hread
        split at hread
        · exact (hshort _ _ _ _ rfl).elim
        · cases hread
          rfl
      subst hnil
      exact ⟨Nat.div_eq_of_lt hless, List.forall_mem_nil _⟩

/-- What `imgcopy` writes for the arguments it accepts agrees with its header exactly if every
file can be opened, and the byte behind each name of 63 bytes happens to be zero: the header is
written before any file is opened, and `strncpy` does not write that byte. The first bound is
that of `argc`, the last that of `ftell`. -/
theorem imgcopy_selfConsistent_iff {fopen : List Byte → Option (List Byte)} (stack : Nat → Byte)
    {args : List (List Byte)} {fileList : List (List Byte × List Byte)}
    (hargc : args.length + 1 < 2 ^ 31) (hplain : ∀ a ∈ args, 0 ∉ a)
    (hcount : 4 ≤ args.length + 1 ∧ (args.length + 1) % 3 = 1)
    (hread : readArgs args = .ok fileList)
    (hsize : ∀ path contents, fopen path = some contents → contents.length < 2 ^ 63) :
    SelfConsistent (imgcopy fopen stack args).2 ↔
      ∀ i f, fileList[i]? = some f →
        (fopen f.1).isSome ∧ (f.2.length ≤ 62 ∨ stack i = 0) := by
  obtain ⟨hfiles, hnames⟩ := readArgs_ok hread hplain
  obtain ⟨records, hwrite, -, hall, hzero⟩ := writeFiles_eq_all stack hsize hnames 0
  have himage : (imgcopy fopen stack args).2 =
      toLE 8 ramfsMagic ++ toLE 8 fileList.length ++ all records ++ trailer := by
    have hargs : ¬ (args.length + 1 < 4 ∨ (args.length + 1) % 3 ≠ 1) := by omega
    simp only [imgcopy, if_neg hargs, hread, Nat.add_sub_cancel, hfiles, hwrite]
  have hlt : fileList.length < wordSize := by
    unfold wordSize
    omega
  rw [himage, selfConsistent_iff hlt, hall, hzero, NamesEnd]
  simp only [Nat.zero_add]
  constructor
  · rintro ⟨hopen, hend⟩ i f hf
    have hsome := hopen f (List.mem_of_getElem? hf)
    exact ⟨hsome, hend i f hf hsome⟩
  · intro h
    refine ⟨fun f hf => ?_, fun i f hf _ => (h i f hf).2⟩
    obtain ⟨i, hi⟩ := List.mem_iff_getElem?.mp hf
    exact (h i f hi).1

/-- The image of `config.txt` is consistent. -/
theorem configImage_selfConsistent : SelfConsistent (imgcopy
    (fun path => if path = configFile.path then some configFile.contents else none)
    (fun _ => 0xcc) (HostFile.args [configFile])).2 := by
  refine (@imgcopy_selfConsistent_iff _ (fun _ => 0xcc) (HostFile.args [configFile])
    [(configFile.path, configFile.name)] (by decide) (by decide) (by decide) rfl ?_).mpr ?_
  · intro path contents h
    split at h
    · cases h
      exact configFile.contents_lt
    · cases h
  · intro i f hf
    obtain rfl := List.mem_singleton.mp (List.mem_of_getElem? hf)
    exact ⟨rfl, .inl configFile.name_le⟩

/-- The only file is missing: the header counts it all the same. -/
theorem missingFile_not_selfConsistent :
    ¬ SelfConsistent (imgcopy (fun _ => none) (fun _ => 0) (HostFile.args [configFile])).2 := by
  have himage : (imgcopy (fun _ => none) (fun _ => 0) (HostFile.args [configFile])).2 =
      toLE 8 ramfsMagic ++ toLE 8 1 ++ all [] ++ trailer := rfl
  rw [himage, selfConsistent_iff (by decide)]
  exact fun h => Nat.zero_ne_one h.1

end ClayFigure
